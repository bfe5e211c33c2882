import TermRewriting.Rewrite.Engine
import TermRewriting.Trs.Invariant

/-! What the deterministic mode of a TRS gives the rewrite engine (`types/trs.rs`). With one
clause per rule, `rewrite_head` gives one term wherever it gives any; `Normal` and `Eager`
rewrite at one site only, with the first rule that matches there, so each yields at most one
term. `All` and `String` rewrite at every site and may yield more. -/
namespace TermRewriting.TRS

theorem length_of_mapM_eq_some {α β : Type} {f : α → Option β} :
    ∀ {l : List α} {ys : List β}, l.mapM f = some ys → ys.length = l.length
  | [], ys, h => by
    simp only [List.mapM_nil, Option.pure_def, Option.some.injEq] at h
    subst h
    rfl
  | a :: l, ys, h => by
    rw [List.mapM_cons] at h
    obtain ⟨b, -, h⟩ := Option.bind_eq_some.mp h
    obtain ⟨bs, hbs, h⟩ := Option.bind_eq_some.mp h
    simp only [Option.pure_def, Option.some.injEq] at h
    subst h
    simp [length_of_mapM_eq_some hbs]

section OneClause

variable {trs : TRS} (h1 : ∀ r ∈ trs.rules, r.rhs.length = 1)
include h1

theorem rewriteHead_length {t : Term} {us : List Term} (h : trs.rewriteHead t = some us) :
    us.length = 1 := by
  obtain ⟨r, hr, hm⟩ := List.exists_of_findSome?_eq_some h
  split at hm
  · split_ifs at hm
    cases hm
    simpa using h1 r hr
  · cases hm

theorem getD_rewriteHead_length (t : Term) : ((trs.rewriteHead t).getD []).length ≤ 1 := by
  cases h : trs.rewriteHead t with
  | none => simp
  | some us => simp [rewriteHead_length h1 h]

theorem rewriteEager_length : ∀ t : Term, (trs.rewriteEager t).length ≤ 1 := by
  refine rewriteEager.induct trs _
    (fun op done rest => ∀ its, rewriteArgsFrom trs op done rest = some its → its.length ≤ 1)
    (fun v => getD_rewriteHead_length h1 _) (fun op args ih => ?_)
    (fun _ _ its h => by simp [rewriteArgsFrom] at h) (fun op done arg rest hnil _ ih its h => ?_)
    (fun op done arg rest hne ih its h => ?_)
  · simp only [rewriteEager]
    cases h : rewriteArgsFrom trs op [] args with
    | some its => exact ih its h
    | none => exact getD_rewriteHead_length h1 _
  · rw [rewriteArgsFrom, hnil] at h
    exact ih its h
  · simp only [rewriteArgsFrom] at h
    cases h
    simpa using ih

theorem search_items_length : ∀ stack : List Frame, ∀ k, trs.search stack = some k →
    ∀ us, k.items = some us → us.length ≤ 1 := by
  refine search.induct trs _ (fun k h us hu => by rw [search_nil] at h; cases h; cases hu; simp)
    (fun fr stack h k hk => by simp [search_cons, h] at hk)
    (fun fr stack v h ih k hk => by rw [search_cons, h] at hk; exact ih k hk)
    (fun fr stack newOp newArgs h it hit k hk us hu => ?_)
    (fun fr stack newOp newArgs h hnone ih k hk => by
      rw [search_cons, h] at hk
      simp only [hnone] at hk
      exact ih k hk)
  rw [search_cons, h] at hk
  simp only [hit, Option.some.injEq] at hk
  subst hk
  rw [firstRewrites_eq_rewriteHead] at hit
  rw [length_of_mapM_eq_some hu, rewriteHead_length h1 hit]

theorem rewrite_normal_length (term : Term) (sig : Signature) {us : List Term}
    (h : trs.rewrite term .normal sig = some us) : us.length ≤ 1 := by
  obtain ⟨k, hk, hus⟩ := Option.bind_eq_some.mp h
  cases term with
  | «variable» =>
    cases hk
    cases hus
    simp
  | application op args =>
    simp only [normalNew] at hk
    split at hk
    · rename_i it hit
      cases hk
      cases hus
      rw [firstRewrites_eq_rewriteHead] at hit
      exact (rewriteHead_length h1 hit).le
    · exact search_items_length h1 _ k hk us hus

end OneClause

/-- On a deterministic TRS with the invariants, `Normal` and `Eager` yield at most one term for
every term: each rule has one clause, and both strategies rewrite at a single site with a
single rule. -/
theorem rewrite_deterministic {trs : TRS} (h : trs.Inv) (hd : trs.isDeterministic = true)
    {strategy : Strategy} (hs : strategy = .normal ∨ strategy = .eager) (term : Term)
    (sig : Signature) {us : List Term} (hr : trs.rewrite term strategy sig = some us) :
    us.length ≤ 1 := by
  have h1 := h.deterministic hd
  rcases hs with rfl | rfl
  · exact rewrite_normal_length h1 term sig hr
  · cases hr
    exact rewriteEager_length h1 term

/-- `C = D`, deterministic, rewrites `H(C)` under `Normal` to `H(D)` alone. -/
theorem rewrite_deterministic_normal :
    (TRS.mk true [⟨.application ⟨3⟩ [], [.application ⟨4⟩ []]⟩]).Inv ∧
      (TRS.mk true [⟨.application ⟨3⟩ [], [.application ⟨4⟩ []]⟩]).rewrite
        (.application ⟨7⟩ [.application ⟨3⟩ []]) .normal exampleSig =
        some [.application ⟨7⟩ [.application ⟨4⟩ []]] ∧
      [Term.application ⟨7⟩ [.application ⟨4⟩ []]].length ≤ 1 :=
  have h : (TRS.mk true [⟨.application ⟨3⟩ [], [.application ⟨4⟩ []]⟩]).Inv :=
    ⟨List.pairwise_singleton _ _, by decide, by decide⟩
  have hr : (TRS.mk true [⟨.application ⟨3⟩ [], [.application ⟨4⟩ []]⟩]).rewrite
      (.application ⟨7⟩ [.application ⟨3⟩ []]) .normal exampleSig =
      some [.application ⟨7⟩ [.application ⟨4⟩ []]] := by
    simp [rewrite, normalNew, firstRewrites, search_cons, NormalKind.items, List.mapM.loop,
      Frame.embed, Rule.rewrite, Term.pmatch, Term.pmatchAux, Term.pmatchList]
  ⟨h, hr, rewrite_deterministic h rfl (.inl rfl) _ _ hr⟩

end TermRewriting.TRS
