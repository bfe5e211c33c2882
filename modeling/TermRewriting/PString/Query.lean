import TermRewriting.PString.Basic

/-! `PString::query` against what it computes: the alignment sum `A(t, d, s)`, the total weight
of the words over `{I, D, S}` with `t`, `d` and `s` steps of each kind. The memo table stays
right on every state that `PString::new` and any queries reach, so a cache hit returns what a
fresh computation would. -/
namespace TermRewriting.PString

/-- One edit step: an insertion, a deletion or a substitution. -/
inductive Step where
  | ins
  | del
  | sub
  deriving DecidableEq, Repr

/-- Every word of `n` edit steps: a word of `n + 1` steps is a word of `n` steps and a last
step. -/
def allWords : Nat → List (List Step)
  | 0 => [[]]
  | n + 1 => (allWords n).flatMap fun w => [w ++ [.ins], w ++ [.del], w ++ [.sub]]

/-- The numbers of insertions, deletions and substitutions of a word. -/
def counts (w : List Step) : Nat × Nat × Nat := (w.count .ins, w.count .del, w.count .sub)

/-- The positions of `x` and `y` a step moves past: `x` for `D` and `S`, `y` for `I` and `S`. -/
def Step.advance : Nat × Nat → Step → Nat × Nat
  | (i, j), .ins => (i, j + 1)
  | (i, j), .del => (i + 1, j)
  | (i, j), .sub => (i + 1, j + 1)

theorem mem_allWords : ∀ {n : Nat} {w : List Step}, w ∈ allWords n ↔ w.length = n
  | 0, w => by simp [allWords, List.length_eq_zero]
  | n + 1, w => by
    simp only [allWords, List.mem_flatMap, mem_allWords, List.mem_cons, List.mem_singleton,
      List.not_mem_nil, or_false]
    constructor
    · rintro ⟨v, rfl, rfl | rfl | rfl⟩ <;> simp
    · intro h
      obtain ⟨v, l, rfl⟩ : ∃ v l, w = v ++ [l] := ⟨w.dropLast, w.getLast (by rintro rfl; simp at h),
        (List.dropLast_append_getLast _).symm⟩
      refine ⟨v, by simpa using h, ?_⟩
      cases l <;> simp

theorem nodup_allWords : ∀ n : Nat, (allWords n).Nodup
  | 0 => by simp [allWords]
  | n + 1 => by
    refine List.nodup_flatMap.mpr ⟨fun w _ => by simp, (nodup_allWords n).imp fun hne x hw hv => ?_⟩
    simp only [List.mem_cons, List.mem_singleton, List.not_mem_nil, or_false] at hw hv
    exact hne (by rcases hw with rfl | rfl | rfl <;> rcases hv with h | h | h <;>
      exact (List.append_inj' h rfl).1)

theorem foldl_advance : ∀ (w : List Step) (i j : Nat),
    w.foldl Step.advance (i, j) = (i + w.count .del + w.count .sub, j + w.count .ins + w.count .sub)
  | [], _, _ => rfl
  | l :: w, i, j => by
    cases l <;> simp only [List.foldl_cons, Step.advance, foldl_advance w, List.count_cons] <;>
      simp <;> omega

variable {R : Type} [Field R]

/-- The weight of one step, taken after `i` steps from `{D, S}` and `j` steps from `{I, S}`:
`p_sub(x[i], y[j])` for a substitution, `0` past the end of either string. -/
def stepWeight (ps : PString R) (i j : Nat) : Step → R
  | .ins => ps.dist.pInsertion
  | .del => ps.dist.pDeletion
  | .sub =>
    match ps.x[i]?, ps.y[j]? with
    | some a, some b => ps.pSub a b
    | _, _ => 0

/-- The weight of a word: the product of its steps' weights, read from the left. -/
def wordWeight (ps : PString R) (w : List Step) : R :=
  (w.foldl (fun acc l => (acc.1 * ps.stepWeight acc.2.1 acc.2.2 l, Step.advance acc.2 l))
    ((1 : R), (0, 0))).1

/-- `A(t, d, s)`: the total weight of the words with `t` insertions, `d` deletions and `s`
substitutions. -/
def alignmentSum (ps : PString R) (t d s : Nat) : R :=
  ((allWords (t + d + s)).map fun w => if counts w = (t, d, s) then ps.wordWeight w else 0).sum

theorem wordWeight_append (ps : PString R) (w : List Step) (l : Step) :
    ps.wordWeight (w ++ [l]) =
      ps.wordWeight w * ps.stepWeight (w.count .del + w.count .sub) (w.count .ins + w.count .sub) l := by
  have hsnd : ∀ (v : List Step) (acc : R × Nat × Nat),
      (v.foldl (fun acc l => (acc.1 * ps.stepWeight acc.2.1 acc.2.2 l, Step.advance acc.2 l))
        acc).2 = v.foldl Step.advance acc.2 := by
    intro v
    induction v with
    | nil => intro _; rfl
    | cons l v ih => intro acc; exact ih _
  simp only [wordWeight, List.foldl_append, List.foldl_cons, List.foldl_nil, hsnd, foldl_advance]
  simp

theorem sum_allWords_succ (f : List Step → R) (n : Nat) :
    ((allWords (n + 1)).map f).sum =
      ((allWords n).map fun w => f (w ++ [.ins]) + f (w ++ [.del]) + f (w ++ [.sub])).sum := by
  simp [allWords, List.flatMap, List.sum_flatten, Function.comp_def, add_assoc]

private theorem ite_counts_append_ins (ps : PString R) (w : List Step) (t d s : Nat) :
    (if counts (w ++ [.ins]) = (t, d, s) then ps.wordWeight (w ++ [.ins]) else 0) =
      if t = 0 then 0
      else (if counts w = (t - 1, d, s) then ps.wordWeight w else 0) * ps.dist.pInsertion := by
  rcases t with _ | t <;> simp [counts, wordWeight_append, stepWeight, apply_ite (· * _)]

private theorem ite_counts_append_del (ps : PString R) (w : List Step) (t d s : Nat) :
    (if counts (w ++ [.del]) = (t, d, s) then ps.wordWeight (w ++ [.del]) else 0) =
      if d = 0 then 0
      else (if counts w = (t, d - 1, s) then ps.wordWeight w else 0) * ps.dist.pDeletion := by
  rcases d with _ | d <;> simp [counts, wordWeight_append, stepWeight, apply_ite (· * _)]

private theorem ite_counts_append_sub (ps : PString R) (w : List Step) (t d s : Nat) :
    (if counts (w ++ [.sub]) = (t, d, s) then ps.wordWeight (w ++ [.sub]) else 0) =
      if s = 0 then 0
      else (if counts w = (t, d, s - 1) then ps.wordWeight w else 0) *
        ps.stepWeight (d + s - 1) (t + s - 1) .sub := by
  rcases s with _ | s
  · simp [counts]
  · by_cases h : counts w = (t, d, s)
    · simp only [counts, Prod.mk.injEq] at h
      simp [counts, h, wordWeight_append, Nat.add_sub_cancel]
    · simp only [counts, Prod.mk.injEq, List.count_append] at h ⊢
      simp [h]

/-- A word ends in an insertion, a deletion or a substitution: the recurrence of
`PString::query`, read off the alignment sums. -/
theorem alignmentSum_eq (ps : PString R) {t d s n : Nat} (hn : t + d + s = n + 1) :
    ps.alignmentSum t d s =
      (if t = 0 then 0 else ps.alignmentSum (t - 1) d s * ps.dist.pInsertion) +
      (if d = 0 then 0 else ps.alignmentSum t (d - 1) s * ps.dist.pDeletion) +
      (if s = 0 then 0 else
        ps.alignmentSum t d (s - 1) * ps.stepWeight (d + s - 1) (t + s - 1) .sub) := by
  unfold alignmentSum
  rw [hn, sum_allWords_succ]
  simp only [ite_counts_append_ins, ite_counts_append_del, ite_counts_append_sub, List.sum_map_add]
  congr 1
  congr 1
  · by_cases ht : t = 0
    · simp [ht, nsmul_zero]
    · simp only [ht, if_false]
      rw [show t - 1 + d + s = n by omega, List.sum_map_mul_right]
  · by_cases hd : d = 0
    · simp [hd, nsmul_zero]
    · simp only [hd, if_false]
      rw [show t + (d - 1) + s = n by omega, List.sum_map_mul_right]
  · by_cases hs : s = 0
    · simp [hs, nsmul_zero]
    · simp only [hs, if_false]
      rw [show t + d + (s - 1) = n by omega, List.sum_map_mul_right]

/-- Every entry of the memo table is the alignment sum of its key. -/
def CacheOK (ps : PString R) : Prop :=
  ∀ k v, (k, v) ∈ ps.cache → v = ps.alignmentSum k.1 k.2.1 k.2.2

/-- What a call of `query` may return: the alignment sum, with only the memo table changed
and every entry still right; or a panic, on a key that reaches past `x` or `y`. -/
def Answer (ps : PString R) (t d s : Nat) : Option (R × PString R) → Prop
  | some (v, ps') => v = ps.alignmentSum t d s ∧ ∃ c, ps' = { ps with cache := c } ∧ CacheOK ps'
  | none => ps.x.length < s + d ∨ ps.y.length < s + t

theorem answer_store {ps : PString R} {t d s : Nat} {c : List ((Nat × Nat × Nat) × R)} {v : R}
    (hc : CacheOK { ps with cache := c }) (hv : v = ps.alignmentSum t d s) :
    Answer ps t d s (store (t, d, s) (some (v, { ps with cache := c }))) := by
  refine ⟨hv, ((t, d, s), v) :: c, rfl, fun k w hk => ?_⟩
  rcases List.mem_cons.mp hk with hk | hk
  · cases hk
    exact hv
  · exact hc k w hk

/-- A call inside the recurrence, made on the state an earlier call left: a panic of the
inner call is a panic of the outer one, on a key that reaches at least as far; an answer is
fed on with the alignment sum. -/
theorem answer_bind {ps : PString R} {c₀ : List ((Nat × Nat × Nat) × R)} {t d s t' d' s' : Nat}
    {r : Option (R × PString R)} (hr : Answer { ps with cache := c₀ } t d s r)
    (hoob : s + d ≤ s' + d' ∧ s + t ≤ s' + t') {f : R × PString R → Option (R × PString R)}
    (hf : ∀ c, CacheOK { ps with cache := c } →
      Answer ps t' d' s' (store (t', d', s') (f (ps.alignmentSum t d s, { ps with cache := c })))) :
    Answer ps t' d' s' (store (t', d', s') (r >>= f)) := by
  cases r with
  | none =>
    simp only [Answer] at hr
    simp only [Answer, store, Option.bind_eq_bind, Option.none_bind]
    omega
  | some r =>
    obtain ⟨v, ps'⟩ := r
    obtain ⟨rfl, c, rfl, hc⟩ := hr
    exact hf c hc

/-- The last step of a substitution branch: the reads of `x[i]` and `y[j]`, which panic past
the end of either string. -/
theorem answer_index {ps : PString R} {t d s i j : Nat} {c : List ((Nat × Nat × Nat) × R)}
    (hc : CacheOK { ps with cache := c }) (hoob : i < s + d ∧ j < s + t) {g : Atom → Atom → R}
    (hg : ∀ a b, ps.x[i]? = some a → ps.y[j]? = some b → g a b = ps.alignmentSum t d s) :
    Answer ps t d s (store (t, d, s) (do
      let a ← ps.x[i]?
      let b ← ps.y[j]?
      pure (g a b, { ps with cache := c }))) := by
  cases ha : ps.x[i]? with
  | none =>
    simp only [List.getElem?_eq_none_iff] at ha
    simp only [Answer, store, Option.bind_eq_bind, Option.none_bind]
    omega
  | some a =>
    cases hb : ps.y[j]? with
    | none =>
      simp only [List.getElem?_eq_none_iff] at hb
      simp only [Answer, store, Option.bind_eq_bind, Option.none_bind, Option.some_bind]
      omega
    | some b => exact answer_store hc (hg a b ha hb)

theorem alignmentSum_zero (ps : PString R) : ps.alignmentSum 0 0 0 = 1 := by
  simp [alignmentSum, allWords, counts, wordWeight]

@[simp] theorem pSub_cache (ps : PString R) (c : List ((Nat × Nat × Nat) × R)) :
    ({ ps with cache := c } : PString R).pSub = ps.pSub := rfl

theorem query_hit {ps : PString R} {t d s : Nat} {v : R} (hv : ps.cache.lookup (t, d, s) = some v) :
    ps.query t d s = some (v, ps) := by
  rcases t with _ | t <;> rcases d with _ | d <;> rcases s with _ | s <;>
    simp only [query.eq_1, query.eq_2, query.eq_3, query.eq_4, query.eq_5, query.eq_6,
      query.eq_7, query.eq_8, hv]

theorem query_answer : ∀ (ps : PString R) (t d s : Nat), CacheOK ps →
    Answer ps t d s (ps.query t d s) := by
  refine query.induct _ (fun ps t d s v hv hc => ?_) (fun ps t d s hv ih hc => ?_)
  · rw [query_hit hv]
    obtain ⟨l₁, l₂, hl, -⟩ := List.lookup_eq_some_iff.mp hv
    exact ⟨hc (t, d, s) v (by simp [hl]), ps.cache, rfl, hc⟩
  rcases t with _ | t <;> rcases d with _ | d <;> rcases s with _ | s
  · rw [query.eq_1, hv]
    exact answer_store hc (alignmentSum_zero ps).symm
  · rw [query.eq_4, hv]
    exact answer_bind (ih hc) (by omega) fun c hc' => answer_index hc' (by omega)
      fun a b ha hb => by
        rw [alignmentSum_eq ps (show 0 + 0 + (s + 1) = s + 1 by omega)]
        simp only [Nat.add_one_ne_zero, ite_true, ite_false, zero_add, add_zero,
          Nat.add_sub_cancel, pSub_cache, stepWeight, ha, hb]
  · rw [query.eq_3, hv]
    exact answer_bind (ih hc) (by omega) fun c hc' => answer_store hc' (by
      rw [alignmentSum_eq ps (show 0 + (d + 1) + 0 = d + 1 by omega)]
      simp only [Nat.add_one_ne_zero, ite_true, ite_false, zero_add, add_zero, Nat.add_sub_cancel])
  · obtain ⟨ih₁, ih₂⟩ := ih
    rw [query.eq_7, hv]
    exact answer_bind (ih₁ hc) (by omega) fun c₁ hc₁ => answer_bind (ih₂ _ hc₁) (by omega)
      fun c₂ hc₂ => answer_index hc₂ (by omega) fun a b ha hb => by
        rw [alignmentSum_eq ps (show 0 + (d + 1) + (s + 1) = d + s + 1 + 1 by omega)]
        simp only [Nat.add_one_ne_zero, ite_true, ite_false, zero_add, Nat.add_sub_cancel,
          Nat.add_succ_sub_one, pSub_cache, stepWeight, ha, hb,
          show d + 1 + s = s + d + 1 by omega]
  · rw [query.eq_2, hv]
    exact answer_bind (ih hc) (by omega) fun c hc' => answer_store hc' (by
      rw [alignmentSum_eq ps (show t + 1 + 0 + 0 = t + 1 by omega)]
      simp only [Nat.add_one_ne_zero, ite_true, ite_false, add_zero, Nat.add_sub_cancel])
  · obtain ⟨ih₁, ih₂⟩ := ih
    rw [query.eq_6, hv]
    exact answer_bind (ih₁ hc) (by omega) fun c₁ hc₁ => answer_bind (ih₂ _ hc₁) (by omega)
      fun c₂ hc₂ => answer_index hc₂ (by omega) fun a b ha hb => by
        rw [alignmentSum_eq ps (show t + 1 + 0 + (s + 1) = t + s + 1 + 1 by omega)]
        simp only [Nat.add_one_ne_zero, ite_true, ite_false, zero_add, add_zero,
          Nat.add_sub_cancel, Nat.add_succ_sub_one, pSub_cache, stepWeight, ha, hb,
          show t + 1 + s = s + t + 1 by omega]
  · obtain ⟨ih₁, ih₂⟩ := ih
    rw [query.eq_5, hv]
    exact answer_bind (ih₁ hc) (by omega) fun c₁ hc₁ => answer_bind (ih₂ _ hc₁) (by omega)
      fun c₂ hc₂ => answer_store hc₂ (by
        rw [alignmentSum_eq ps (show t + 1 + (d + 1) + 0 = t + d + 1 + 1 by omega)]
        simp only [Nat.add_one_ne_zero, ite_true, ite_false, add_zero, Nat.add_sub_cancel])
  · obtain ⟨ih₁, ih₂, ih₃⟩ := ih
    rw [query.eq_8, hv]
    exact answer_bind (ih₁ hc) (by omega) fun c₁ hc₁ => answer_bind (ih₂ _ hc₁) (by omega)
      fun c₂ hc₂ => answer_bind (ih₃ _ hc₂) (by omega) fun c₃ hc₃ => answer_index hc₃ (by omega)
      fun a b ha hb => by
        rw [alignmentSum_eq ps (show t + 1 + (d + 1) + (s + 1) = t + d + s + 2 + 1 by omega)]
        simp only [Nat.add_one_ne_zero, ite_false, Nat.add_sub_cancel, Nat.add_succ_sub_one,
          pSub_cache, stepWeight, ha, hb, show d + 1 + s = s + d + 1 by omega,
          show t + 1 + s = s + t + 1 by omega]

/-- The states of a `PString`: `PString::new`, then the memo table any sequence of `query`
calls leaves, as `compute` makes them. -/
inductive Reachable : PString R → Prop
  | new (x y : List Atom) (dist : PStringDist R) (sig : Signature) : Reachable (new x y dist sig)
  | query {ps ps' : PString R} {t d s : Nat} {v : R} :
      Reachable ps → ps.query t d s = some (v, ps') → Reachable ps'

/-- The invariant of a reachable state: a right memo table, and `m`, `n` the lengths of the
strings. -/
structure Inv (ps : PString R) : Prop where
  cache_ok : CacheOK ps
  m_eq : ps.m = ps.x.length
  n_eq : ps.n = ps.y.length

theorem new_inv (x y : List Atom) (dist : PStringDist R) (sig : Signature) :
    (new x y dist sig).Inv :=
  ⟨fun _ _ h => by simp [new] at h, rfl, rfl⟩

/-- Within the strings, `query` answers with the alignment sum and a right memo table. -/
theorem Inv.query_some {ps : PString R} (hi : ps.Inv) {t d s : Nat} (hx : s + d ≤ ps.m)
    (hy : s + t ≤ ps.n) :
    ∃ c, ps.query t d s = some (ps.alignmentSum t d s, { ps with cache := c }) ∧
      CacheOK { ps with cache := c } := by
  have h := query_answer ps t d s hi.cache_ok
  cases hq : ps.query t d s with
  | none =>
    rw [hq] at h
    have := hi.m_eq
    have := hi.n_eq
    simp only [Answer] at h
    omega
  | some r =>
    obtain ⟨v, ps'⟩ := r
    rw [hq] at h
    obtain ⟨rfl, c, rfl, hc⟩ := h
    exact ⟨c, rfl, hc⟩

theorem Inv.query {ps ps' : PString R} (hi : ps.Inv) {t d s : Nat} {v : R}
    (h : ps.query t d s = some (v, ps')) : ps'.Inv := by
  have ha := query_answer ps t d s hi.cache_ok
  rw [h] at ha
  obtain ⟨-, c, rfl, hc⟩ := ha
  exact ⟨hc, hi.m_eq, hi.n_eq⟩

theorem Reachable.inv {ps : PString R} (h : Reachable ps) : ps.Inv := by
  induction h with
  | new x y dist sig => exact new_inv x y dist sig
  | query _ hq ih => exact ih.query hq

/-- On every state that `PString::new` and any earlier queries leave, `query` at a key within
the strings reads `x` and `y` only in bounds and returns the alignment sum `A(t, d, s)`, and
every value of the memo table is the alignment sum of its key. -/
theorem query_eq_alignmentSum {ps : PString R} (hr : Reachable ps) {t d s : Nat}
    (hx : s + d ≤ ps.m) (hy : s + t ≤ ps.n) :
    (∀ k v, (k, v) ∈ ps.cache → v = ps.alignmentSum k.1 k.2.1 k.2.2) ∧
      ∃ c, ps.query t d s = some (ps.alignmentSum t d s, { ps with cache := c }) :=
  ⟨hr.inv.cache_ok, (hr.inv.query_some hx hy).imp fun _ h => h.1⟩

theorem query_eq_alignmentSum_oneAtom :
    Reachable oneAtom ∧ 1 + 0 ≤ oneAtom.m ∧ 1 + 0 ≤ oneAtom.n ∧
      ((∀ k v, (k, v) ∈ oneAtom.cache → v = oneAtom.alignmentSum k.1 k.2.1 k.2.2) ∧
        ∃ c, oneAtom.query 0 0 1 = some (oneAtom.alignmentSum 0 0 1, { oneAtom with cache := c })) :=
  have hr : Reachable oneAtom := .new _ _ _ _
  ⟨hr, by decide, by decide, query_eq_alignmentSum hr (by decide) (by decide)⟩

/-- From a reachable state, `compute` indexes `x` and `y` only within bounds, and the state it
leaves is reachable. -/
theorem compute_reachable {ps : PString R} (hr : Reachable ps) (tMax dMax : Nat) :
    ∃ v ps', ps.compute tMax dMax = some (v, ps') ∧ Reachable ps' := by
  have hts : ∀ t ∈ insertionCounts ps.m ps.n tMax dMax, t ≤ ps.n ∧ ps.n ≤ ps.m + t := by
    intro t ht
    simp only [insertionCounts, List.mem_filter, Bool.not_eq_true', Bool.or_eq_false_iff,
      decide_eq_false_iff_not] at ht
    omega
  unfold compute
  generalize insertionCounts ps.m ps.n tMax dMax = ts at hts
  suffices ∀ (acc : R × PString R), Reachable acc.2 → acc.2.m = ps.m → acc.2.n = ps.n →
      ∃ v ps', ts.foldlM (fun acc t => do
        let (q, ps) ← acc.2.query t (acc.2.m + t - acc.2.n) (acc.2.n - t)
        pure (acc.1 + ps.rhoT t * q * ps.normalizer t, ps)) acc = some (v, ps') ∧ Reachable ps' from
    this (0, ps) hr rfl rfl
  induction ts with
  | nil => exact fun acc hr _ _ => ⟨acc.1, acc.2, rfl, hr⟩
  | cons t ts ih =>
    intro acc hra hm hn
    obtain ⟨ht, hn'⟩ := hts t (List.mem_cons_self _ _)
    obtain ⟨c, hq, -⟩ := hra.inv.query_some (t := t) (d := acc.2.m + t - acc.2.n) (s := acc.2.n - t)
      (by omega) (by omega)
    simp only [List.foldlM_cons, hq, Option.bind_eq_bind, Option.some_bind]
    exact ih (fun t' h => hts t' (List.mem_cons_of_mem _ h)) _ (hra.query hq) hm hn

end TermRewriting.PString
