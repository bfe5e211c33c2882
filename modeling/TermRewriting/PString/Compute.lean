import TermRewriting.PString.Query
import TermRewriting.PString.List
import TermRewriting.Rewrite.StringRewrite

/-! `PString::compute` and its callers `TRS::p_string` and `TRS::p_list` (`types/trs.rs`), up to
their final `ln`, in a release build. From every reachable state `compute` returns
`Σ_t rho_t(t) · A(t, m + t - n, n - t) · normalizer(t)` over the insertion counts, whatever the
memo table holds, and changes nothing but the memo table; so `p_string` never panics, `p_list`
panics only where its list conversions do (on lists that are not well formed), and each returns
that sum for the strings of its terms. With no insertions (`beta = 0`) and strings of one length
the sum is the product of `p_sub` along the two strings. -/
namespace TermRewriting.PString

variable {R : Type} [Field R]

/-- What `compute` adds up: the probability of `y` given `x` under the edit model, summed over
the numbers of insertions. -/
def probability (ps : PString R) (tMax dMax : Nat) : R :=
  ((insertionCounts ps.m ps.n tMax dMax).map fun t =>
    ps.rhoT t * ps.alignmentSum t (ps.m + t - ps.n) (ps.n - t) * ps.normalizer t).sum

@[simp] theorem rhoT_cache (ps : PString R) (c : List ((Nat × Nat × Nat) × R)) :
    ({ ps with cache := c } : PString R).rhoT = ps.rhoT := rfl

@[simp] theorem normalizer_cache (ps : PString R) (c : List ((Nat × Nat × Nat) × R)) :
    ({ ps with cache := c } : PString R).normalizer = ps.normalizer := rfl

@[simp] theorem alignmentSum_cache (ps : PString R) (c : List ((Nat × Nat × Nat) × R)) :
    ({ ps with cache := c } : PString R).alignmentSum = ps.alignmentSum := rfl

/-- The loop of `compute` over feasible insertion counts, on a state that differs from `ps` only
in a right memo table: it adds the terms of the sum to the accumulator and leaves such a
state. -/
theorem foldlM_compute {ps : PString R} (hi : ps.Inv) :
    ∀ (ts : List Nat), (∀ t ∈ ts, t ≤ ps.n ∧ ps.n ≤ ps.m + t) →
      ∀ (a : R) (c : List ((Nat × Nat × Nat) × R)), CacheOK { ps with cache := c } →
      ∃ c', ts.foldlM (fun acc t => do
          let (q, ps) ← acc.2.query t (acc.2.m + t - acc.2.n) (acc.2.n - t)
          pure (acc.1 + ps.rhoT t * q * ps.normalizer t, ps)) (a, { ps with cache := c }) =
        some (a + (ts.map fun t => ps.rhoT t * ps.alignmentSum t (ps.m + t - ps.n) (ps.n - t) *
          ps.normalizer t).sum, { ps with cache := c' }) ∧ CacheOK { ps with cache := c' }
  | [], _, a, c, hc => ⟨c, by rw [List.foldlM_nil, List.map_nil, List.sum_nil, add_zero]; rfl, hc⟩
  | t :: ts, hts, a, c, hc => by
    obtain ⟨ht, hn⟩ := hts t (.head _)
    have hi' : ({ ps with cache := c } : PString R).Inv := ⟨hc, hi.m_eq, hi.n_eq⟩
    obtain ⟨c₁, hq, hc₁⟩ := hi'.query_some (t := t) (d := ps.m + t - ps.n) (s := ps.n - t)
      (show _ ≤ ps.m by omega) (show _ ≤ ps.n by omega)
    dsimp only at hq hc₁
    obtain ⟨c', hf, hc'⟩ := foldlM_compute hi ts (fun t' h => hts t' (.tail _ h))
      (a + ps.rhoT t * ps.alignmentSum t (ps.m + t - ps.n) (ps.n - t) * ps.normalizer t) c₁ hc₁
    refine ⟨c', ?_, hc'⟩
    simp only [List.foldlM_cons, hq, Option.bind_eq_bind, Option.some_bind, Option.pure_def,
      rhoT_cache, normalizer_cache, alignmentSum_cache] at hf ⊢
    rw [hf, List.map_cons, List.sum_cons, add_assoc]

theorem feasible_of_mem_insertionCounts {m n tMax dMax t : Nat}
    (h : t ∈ insertionCounts m n tMax dMax) : t ≤ n ∧ n ≤ m + t := by
  simp only [insertionCounts, List.mem_filter, Bool.not_eq_true', Bool.or_eq_false_iff,
    decide_eq_false_iff_not] at h
  omega

/-- From every state that `PString::new` and earlier queries leave, `compute` in a release build
returns the sum
`Σ_t rho_t(t) · A(t, m + t - n, n - t) · normalizer(t)` over the insertion counts, whatever the
memo table holds, and leaves a reachable state that differs only in its memo table. -/
theorem compute_eq_probability {ps : PString R} (hr : Reachable ps) (tMax dMax : Nat) :
    ∃ c, ps.compute tMax dMax = some (ps.probability tMax dMax, { ps with cache := c }) ∧
      Reachable ({ ps with cache := c } : PString R) := by
  obtain ⟨c, hf, -⟩ := foldlM_compute hr.inv _ (fun _ => feasible_of_mem_insertionCounts) 0
    ps.cache hr.inv.cache_ok
  rw [zero_add] at hf
  obtain ⟨v, ps', hc, hr'⟩ := compute_reachable hr tMax dMax
  rw [show ps.compute tMax dMax = _ from hf] at hc
  cases hc
  exact ⟨c, hf, hr'⟩

theorem compute_eq_probability_oneAtom :
    Reachable oneAtom ∧ ∃ c, oneAtom.compute 1 1 =
      some (oneAtom.probability 1 1, { oneAtom with cache := c }) ∧
        Reachable ({ oneAtom with cache := c } : PString ℚ) :=
  have hr : Reachable oneAtom := .new _ _ _ _
  ⟨hr, compute_eq_probability hr 1 1⟩

end TermRewriting.PString

/-! ### `TRS::p_string` and `TRS::p_list` -/

namespace TermRewriting.TRS

open PString

variable {R : Type} [Field R]

/-- `TRS::p_string` up to its final `ln`: the value of `compute` on a fresh `PString` over the
strings of the two terms; `none` where either term has no string form. -/
def pString (x y : Term) (dist : PStringDist R) (tMax dMax : Nat) (sig : Signature) : Option R := do
  let xString ← convertTermToString sig x
  let yString ← convertTermToString sig y
  ((PString.new xString yString dist sig).compute tMax dMax).map Prod.fst

/-- `TRS::p_list` up to its final `ln`: `none` where a list conversion panics; else the value of
`compute` on the strings of the two lists, over the signature both conversions grew, and `0`,
the source's `-∞`, where either conversion fails. -/
def pList (x y : Term) (dist : PStringDist R) (tMax dMax : Nat) (sig : Signature) : Option R :=
  if pListPanics sig x y then none
  else
    match pListStrings sig x y with
    | some (xString, yString, sig) =>
      ((PString.new xString yString dist sig).compute tMax dMax).map Prod.fst
    | none => some 0

theorem compute_new_fst (x y : List Atom) (dist : PStringDist R) (sig : Signature)
    (tMax dMax : Nat) :
    ((PString.new x y dist sig).compute tMax dMax).map Prod.fst =
      some ((PString.new x y dist sig).probability tMax dMax) := by
  obtain ⟨c, hf, -⟩ := foldlM_compute (new_inv x y dist sig) _
    (fun _ => feasible_of_mem_insertionCounts) 0 [] (new_inv x y dist sig).cache_ok
  rw [zero_add] at hf
  rw [show (PString.new x y dist sig).compute tMax dMax = _ from hf, Option.map_some']
  rfl

/-- In a release build `p_string` never panics: it fails exactly where a term has no string
form, and otherwise returns the probability of the one string given the other. -/
theorem pString_eq_probability (x y : Term) (dist : PStringDist R) (tMax dMax : Nat)
    (sig : Signature) :
    pString x y dist tMax dMax sig = (convertTermToString sig x).bind fun xs =>
      (convertTermToString sig y).map fun ys =>
        (PString.new xs ys dist sig).probability tMax dMax := by
  unfold pString
  cases convertTermToString sig x <;> cases convertTermToString sig y <;>
    simp [compute_new_fst]

/-- In a release build `p_list` panics only where a list conversion does, on a list that is not
well formed; otherwise it returns the probability of the one list's string given the other's,
over the grown signature, and `0` where a conversion fails. -/
theorem pList_eq_probability (x y : Term) (dist : PStringDist R) (tMax dMax : Nat)
    (sig : Signature) :
    pList x y dist tMax dMax sig = (if pListPanics sig x y then none else
      some (match pListStrings sig x y with
        | some (xs, ys, sig') => (PString.new xs ys dist sig').probability tMax dMax
        | none => 0)) ∧
      (pListPanics sig x y = true → x.wellFormed sig = false ∨ y.wellFormed sig = false) := by
  refine ⟨?_, wellFormed_of_pListPanics⟩
  unfold pList
  split_ifs
  · rfl
  · split <;> simp [compute_new_fst]

end TermRewriting.TRS
