import TermRewriting.Rewrite.Engine

/-! `Strategy::Eager` is leftmost-innermost rewriting with the first matching rule, and every
term it yields `Strategy::All` yields too. The positions and the redexes are read off the
terms here, apart from the code: a redex is a term some rule's LHS matches. -/
namespace TermRewriting

/-- The subterm at a path of argument indices; `none` when the path leaves the term. -/
def Term.subtermAt : Term → List Nat → Option Term
  | t, [] => some t
  | .variable _, _ :: _ => none
  | .application _ args, i :: path =>
    match args[i]? with
    | some a => a.subtermAt path
    | none => none

namespace TRS

/-- A redex: a term that the LHS of some rule matches. -/
def isRedex (trs : TRS) (t : Term) : Bool :=
  trs.rules.any fun r => (Term.pmatch r.lhs t).isSome

mutual
/-- The leftmost-innermost redex position: from the root, into the leftmost argument that
contains a redex, stopping at a redex none of whose arguments contains one. -/
def liPos (trs : TRS) : Term → Option (List Nat)
  | .variable v => if trs.isRedex (.variable v) then some [] else none
  | .application op args =>
    (liPosArgs trs 0 args).orElse fun _ =>
      if trs.isRedex (.application op args) then some [] else none
/-- `liPos` over the arguments from index `i`: the first argument with a redex. -/
def liPosArgs (trs : TRS) (i : Nat) : List Term → Option (List Nat)
  | [] => none
  | a :: as => ((liPos trs a).map (i :: ·)).orElse fun _ => liPosArgs trs (i + 1) as
end

theorem mapM_some {α β : Type} (f : α → β) :
    ∀ l : List α, (l.mapM fun x => some (f x)) = some (l.map f)
  | [] => rfl
  | x :: l => by
    rw [List.mapM_cons, mapM_some f l]
    rfl

theorem mapM_map_option {α β γ : Type} (g : α → Option β) (h : β → γ) :
    ∀ l : List α, (l.mapM fun x => (g x).map h) = (l.mapM g).map (List.map h)
  | [] => rfl
  | x :: l => by
    simp only [List.mapM_cons, mapM_map_option g h l]
    cases g x <;> cases l.mapM g <;> rfl

/-- A variable is no redex when no LHS is a variable. -/
theorem pmatch_variable_of_not_variable {p : Term} (hp : ∀ v, p ≠ .variable v) (w : Variable) :
    Term.pmatch p (.variable w) = none := by
  cases p with
  | «variable» v => exact absurd rfl (hp v)
  | application f as => rfl

/-- What `rewrite_eager` yields at `t`: nothing when `t` has no redex; else one term per
clause of the first rule matching at the leftmost-innermost redex, in RHS order, each put in
place of the redex. -/
def EagerResult (trs : TRS) (t : Term) (res : List Term) : Prop :=
  (trs.liPos t = none → res = []) ∧
    ∀ p, trs.liPos t = some p → ∃ s r σ, t.subtermAt p = some s ∧
      trs.rules.find? (fun r => (Term.pmatch r.lhs s).isSome) = some r ∧
      Term.pmatch r.lhs s = some σ ∧
      (r.rhs.mapM fun ρ => t.replace p (ρ.substitute σ)) = some res ∧ res ≠ []

theorem EagerResult.of_liPos_none {trs : TRS} {t : Term} {res : List Term}
    (hp : trs.liPos t = none) (h : res = []) : EagerResult trs t res :=
  ⟨fun _ => h, fun _ hq => Option.noConfusion (hp.symm.trans hq)⟩

theorem EagerResult.of_liPos_some {trs : TRS} {t : Term} {res : List Term} {p : List Nat}
    (hp : trs.liPos t = some p) (h : ∃ s r σ, t.subtermAt p = some s ∧
      trs.rules.find? (fun r => (Term.pmatch r.lhs s).isSome) = some r ∧
      Term.pmatch r.lhs s = some σ ∧
      (r.rhs.mapM fun ρ => t.replace p (ρ.substitute σ)) = some res ∧ res ≠ []) :
    EagerResult trs t res :=
  ⟨fun h' => Option.noConfusion (hp.symm.trans h'), fun q hq => by
    rw [hp] at hq
    cases hq
    exact h⟩

/-- The argument loop of `rewrite_args` from the arguments after `done`: it stops at the first
argument with a redex, whose rewrites it puts back among the other arguments. -/
theorem rewriteArgsFrom_result {trs : TRS} (op : Operator) : ∀ args : List Term,
    (∀ a ∈ args, EagerResult trs a (trs.rewriteEager a)) → ∀ done : List Term,
    (trs.liPosArgs done.length args = none → trs.rewriteArgsFrom op done args = none) ∧
    ∀ p, trs.liPosArgs done.length args = some p → ∃ s r σ res,
      (Term.application op (done ++ args)).subtermAt p = some s ∧
      trs.rules.find? (fun r => (Term.pmatch r.lhs s).isSome) = some r ∧
      Term.pmatch r.lhs s = some σ ∧ trs.rewriteArgsFrom op done args = some res ∧
      (r.rhs.mapM fun ρ => (Term.application op (done ++ args)).replace p (ρ.substitute σ)) =
        some res ∧ res ≠ []
  | [], _, _ => ⟨fun _ => rfl, fun p h => by simp [liPosArgs] at h⟩
  | a :: as, ih, done => by
    have ihs := rewriteArgsFrom_result op as fun b hb => ih b (.tail _ hb)
    cases ha : trs.liPos a with
    | none =>
      have he := (ih a (.head _)).1 ha
      have hl : trs.liPosArgs done.length (a :: as) = trs.liPosArgs (done ++ [a]).length as := by
        simp [liPosArgs, ha]
      have hr : trs.rewriteArgsFrom op done (a :: as) = trs.rewriteArgsFrom op (done ++ [a]) as := by
        simp [rewriteArgsFrom, he]
      rw [hl, hr, show done ++ a :: as = done ++ [a] ++ as by simp]
      exact ihs (done ++ [a])
    | some p' =>
      obtain ⟨s, r, σ, hs, hr, hσ, hm, hne⟩ := (ih a (.head _)).2 p' ha
      have hl : trs.liPosArgs done.length (a :: as) = some (done.length :: p') := by
        simp [liPosArgs, ha]
      have hrw : trs.rewriteArgsFrom op done (a :: as) =
          some ((trs.rewriteEager a).map fun x => .application op (done ++ x :: as)) := by
        unfold rewriteArgsFrom
        split
        · contradiction
        · rfl
      have hget : (done ++ a :: as)[done.length]? = some a := by
        rw [List.getElem?_append_right (Nat.le_refl _), Nat.sub_self, List.getElem?_cons_zero]
      refine ⟨fun h => Option.noConfusion (hl.symm.trans h), fun p hp => ?_⟩
      rw [hl] at hp
      cases hp
      refine ⟨s, r, σ, _, by simp [Term.subtermAt, hget, hs], hr, hσ, hrw, ?_, by simpa using hne⟩
      simp only [Term.replace, hget, mapM_map_option, hm]
      simp

section
variable {trs : TRS} (hrhs : ∀ r ∈ trs.rules, r.rhs ≠ [])
include hrhs

/-- With every rule holding a clause, `rewrite_head` instantiates the clauses of the first
rule whose LHS matches. -/
theorem rewriteHead_eq (t : Term) :
    trs.rewriteHead t = (trs.rules.find? fun r => (Term.pmatch r.lhs t).isSome).bind fun r =>
      (Term.pmatch r.lhs t).map fun σ => r.rhs.map (·.substitute σ) := by
  obtain ⟨det, rules⟩ := trs
  induction rules with
  | nil => rfl
  | cons r rs ih =>
    have ih := ih fun x hx => hrhs x (.tail _ hx)
    simp only [rewriteHead, List.findSome?_cons, List.find?_cons] at ih ⊢
    cases hm : Term.pmatch r.lhs t with
    | none => simpa [hm] using ih
    | some σ => simp [hm, hrhs r (.head _)]

/-- At a redex, `rewrite_head` gives the clauses of the first matching rule. -/
theorem rewriteHead_of_isRedex {t : Term} (h : trs.isRedex t) :
    ∃ r σ, trs.rules.find? (fun r => (Term.pmatch r.lhs t).isSome) = some r ∧
      Term.pmatch r.lhs t = some σ ∧ trs.rewriteHead t = some (r.rhs.map (·.substitute σ)) ∧
      r.rhs ≠ [] := by
  cases hf : trs.rules.find? fun r => (Term.pmatch r.lhs t).isSome with
  | none =>
    obtain ⟨r, hr, hm⟩ := List.any_eq_true.mp h
    exact absurd hm (by simpa using List.find?_eq_none.mp hf r hr)
  | some r =>
    have hm := List.find?_some hf
    obtain ⟨σ, hσ⟩ := Option.isSome_iff_exists.mp hm
    exact ⟨r, σ, rfl, hσ, by rw [rewriteHead_eq hrhs, hf]; simp [hσ],
      hrhs r (List.mem_of_find?_eq_some hf)⟩

theorem rewriteHead_of_not_isRedex {t : Term} (h : ¬trs.isRedex t) : trs.rewriteHead t = none := by
  rw [rewriteHead_eq hrhs, List.find?_eq_none.mpr fun r hr hm => h (List.any_eq_true.mpr ⟨r, hr, hm⟩)]
  rfl

/-- `rewrite_eager` rewrites at the leftmost-innermost redex with the first matching rule. -/
theorem rewriteEager_result (hlhs : ∀ r ∈ trs.rules, ∀ v, r.lhs ≠ .variable v) :
    ∀ t : Term, EagerResult trs t (trs.rewriteEager t) := by
  refine Term.induction (fun v => ?_) (fun op args ih => ?_)
  · have hnr : ¬trs.isRedex (.variable v) := by
      simp only [isRedex, List.any_eq_true, not_exists, not_and]
      intro r hr
      simp [pmatch_variable_of_not_variable (hlhs r hr)]
    exact .of_liPos_none (by simp [liPos, hnr])
      (by simp [rewriteEager, rewriteHead_of_not_isRedex hrhs hnr])
  · obtain ⟨hnone, hsome⟩ := rewriteArgsFrom_result op args ih []
    simp only [List.length_nil, List.nil_append] at hnone hsome
    cases hl : trs.liPosArgs 0 args with
    | none =>
      have hra := hnone hl
      by_cases hred : trs.isRedex (.application op args)
      · obtain ⟨r, σ, hf, hσ, hh, hne⟩ := rewriteHead_of_isRedex hrhs hred
        have he : trs.rewriteEager (.application op args) = r.rhs.map (·.substitute σ) := by
          simp [rewriteEager, hra, hh]
        rw [he]
        exact .of_liPos_some (p := []) (by simp [liPos, hl, hred])
          ⟨_, r, σ, rfl, hf, hσ, mapM_some _ _, by simpa using hne⟩
      · exact .of_liPos_none (by simp [liPos, hl, hred])
          (by simp [rewriteEager, hra, rewriteHead_of_not_isRedex hrhs hred])
    | some p =>
      obtain ⟨s, r, σ, res, hs, hf, hσ, hra, hm, hne⟩ := hsome p hl
      have he : trs.rewriteEager (.application op args) = res := by simp [rewriteEager, hra]
      rw [he]
      exact .of_liPos_some (by simp [liPos, hl]) ⟨s, r, σ, hs, hf, hσ, hm, hne⟩

end

/-! ### `Eager` within `All` -/

theorem mem_rewriteAllArgs {trs : TRS} (term : Term) : ∀ (i : Nat) (args : List Term) (j : Nat)
    (a x : Term), args[j]? = some a → x ∈ (trs.rewriteAll a).getD [] →
      (term.replace [i + j] x).getD term ∈ trs.rewriteAllArgs term i args
  | _, [], _, _, _, h, _ => by simp at h
  | i, b :: args, 0, a, x, h, hx => by
    simp only [List.getElem?_cons_zero, Option.some.injEq] at h
    subst h
    simp only [rewriteAllArgs, List.mem_append, List.mem_map, Nat.add_zero]
    exact .inl ⟨x, hx, rfl⟩
  | i, b :: args, j + 1, a, x, h, hx => by
    simp only [List.getElem?_cons_succ] at h
    have := mem_rewriteAllArgs term (i + 1) args j a x h hx
    rw [show i + (j + 1) = i + 1 + j by omega]
    simp only [rewriteAllArgs, List.mem_append]
    exact .inr this

/-- Each rewrite of the argument loop replaces one argument by one of its `Eager` rewrites. -/
theorem rewriteArgsFrom_mem {trs : TRS} (op : Operator) : ∀ (args done res : List Term),
    trs.rewriteArgsFrom op done args = some res → ∀ u ∈ res, ∃ j a x,
      (done ++ args)[j]? = some a ∧ x ∈ trs.rewriteEager a ∧
        u = .application op ((done ++ args).set j x)
  | [], _, _, h, _, _ => by simp [rewriteArgsFrom] at h
  | a :: as, done, res, h, u, hu => by
    unfold rewriteArgsFrom at h
    split at h
    · obtain ⟨j, b, x, hj, hx, rfl⟩ := rewriteArgsFrom_mem op as (done ++ [a]) res h u hu
      exact ⟨j, b, x, by simpa using hj, hx, by simp⟩
    · cases h
      obtain ⟨x, hx, rfl⟩ := List.mem_map.mp hu
      refine ⟨done.length, a, x, ?_, hx, by simp⟩
      rw [List.getElem?_append_right (Nat.le_refl _), Nat.sub_self, List.getElem?_cons_zero]

/-- Every `Eager` rewrite is an `All` rewrite, when no LHS is a variable. -/
theorem rewriteEager_sub_rewriteAll {trs : TRS} (hlhs : ∀ r ∈ trs.rules, ∀ v, r.lhs ≠ .variable v) :
    ∀ t : Term, ∀ u ∈ trs.rewriteEager t, u ∈ (trs.rewriteAll t).getD [] := by
  refine Term.induction (fun v u hu => ?_) (fun op args ih u hu => ?_)
  · have hh : trs.rewriteHead (.variable v) = none :=
      List.findSome?_eq_none_iff.mpr fun r hr => by simp [pmatch_variable_of_not_variable (hlhs r hr)]
    simp [rewriteEager, hh] at hu
  · simp only [rewriteAll, Option.getD_some, List.mem_append]
    cases hra : trs.rewriteArgsFrom op [] args with
    | none =>
      simp only [rewriteEager, hra] at hu
      exact .inl (by simpa using hu)
    | some res =>
      simp only [rewriteEager, hra] at hu
      obtain ⟨j, a, x, hj, hx, rfl⟩ := rewriteArgsFrom_mem op args [] res hra u (by simpa using hu)
      simp only [List.nil_append] at hj ⊢
      have hmem := mem_rewriteAllArgs (.application op args) 0 args j a x hj
        (ih a (List.getElem?_mem hj) x hx)
      rw [Nat.zero_add, Term.replace_singleton, if_pos (List.getElem?_eq_some_iff.mp hj).1] at hmem
      exact .inr hmem

/-! ### The leftmost-innermost position exists -/

theorem liPosArgs_isSome {trs : TRS} : ∀ (k : Nat) (args : List Term) (i : Nat) (a : Term),
    args[i]? = some a → (trs.liPos a).isSome → (trs.liPosArgs k args).isSome
  | _, [], _, _, h, _ => by simp at h
  | k, b :: args, 0, a, h, ha => by
    simp only [List.getElem?_cons_zero, Option.some.injEq] at h
    subst h
    obtain ⟨p, hp⟩ := Option.isSome_iff_exists.mp ha
    simp [liPosArgs, hp]
  | k, b :: args, i + 1, a, h, ha => by
    simp only [List.getElem?_cons_succ] at h
    have := liPosArgs_isSome (k + 1) args i a h ha
    cases hb : trs.liPos b <;> simp [liPosArgs, hb, this]

/-- A term with a redex somewhere has a leftmost-innermost redex position. -/
theorem liPos_isSome {trs : TRS} {s : Term} (hred : trs.isRedex s) :
    ∀ (q : List Nat) (t : Term), t.subtermAt q = some s → (trs.liPos t).isSome
  | [], t, hq => by
    simp only [Term.subtermAt, Option.some.injEq] at hq
    subst hq
    cases t with
    | «variable» v => simp [liPos, hred]
    | application op args => cases h : trs.liPosArgs 0 args <;> simp [liPos, h, hred]
  | i :: q, .variable _, hq => by simp [Term.subtermAt] at hq
  | i :: q, .application op args, hq => by
    simp only [Term.subtermAt] at hq
    split at hq
    · rename_i a ha
      obtain ⟨p, hp⟩ := Option.isSome_iff_exists.mp
        (liPosArgs_isSome 0 args i a ha (liPos_isSome hred q a hq))
      simp [liPos, hp]
    · cases hq

/-- On a TRS whose rules have non-variable LHSs and at least one clause, `rewrite(t, Eager)`
of a term with a redex yields, in RHS order, one term per clause `ρ` of the first rule `r`
matching at the leftmost-innermost redex position `p`: `t` with `ρσ` put at `p`. Each of
them is also yielded by `rewrite(t, All)`. -/
theorem rewriteEager_leftmost_innermost {trs : TRS}
    (hlhs : ∀ r ∈ trs.rules, ∀ v, r.lhs ≠ .variable v) (hrhs : ∀ r ∈ trs.rules, r.rhs ≠ [])
    (sig : Signature) {t : Term} (ht : ∃ q s, t.subtermAt q = some s ∧ trs.isRedex s) :
    ∃ p s r σ, trs.liPos t = some p ∧ t.subtermAt p = some s ∧
      trs.rules.find? (fun r => (Term.pmatch r.lhs s).isSome) = some r ∧
      Term.pmatch r.lhs s = some σ ∧
      (r.rhs.mapM fun ρ => t.replace p (ρ.substitute σ)) = trs.rewrite t .eager sig ∧
      ∀ u ∈ (trs.rewrite t .eager sig).getD [], u ∈ (trs.rewrite t .all sig).getD [] := by
  obtain ⟨q, s₀, hq, hred⟩ := ht
  obtain ⟨p, hp⟩ := Option.isSome_iff_exists.mp (liPos_isSome hred q t hq)
  obtain ⟨s, r, σ, hs, hf, hσ, hm, -⟩ := (rewriteEager_result hrhs hlhs t).2 p hp
  refine ⟨p, s, r, σ, hp, hs, hf, hσ, by simpa [rewrite] using hm, fun u hu => ?_⟩
  simp only [rewrite, Option.getD_some] at hu ⊢
  exact rewriteEager_sub_rewriteAll hlhs t u hu

/-- `C = D`. -/
def eagerTRS : TRS := ⟨false, [⟨.application ⟨3⟩ [], [.application ⟨4⟩ []]⟩]⟩

theorem rewriteEager_leftmost_innermost_example :
    (∀ r ∈ eagerTRS.rules, ∀ v, r.lhs ≠ .variable v) ∧ (∀ r ∈ eagerTRS.rules, r.rhs ≠ []) ∧
      (∃ q s, (Term.application ⟨6⟩ [.application ⟨3⟩ [], .application ⟨3⟩ []]).subtermAt q =
        some s ∧ eagerTRS.isRedex s) ∧
      ∃ p s r σ,
        eagerTRS.liPos (.application ⟨6⟩ [.application ⟨3⟩ [], .application ⟨3⟩ []]) = some p ∧
        (Term.application ⟨6⟩ [.application ⟨3⟩ [], .application ⟨3⟩ []]).subtermAt p = some s ∧
        eagerTRS.rules.find? (fun r => (Term.pmatch r.lhs s).isSome) = some r ∧
        Term.pmatch r.lhs s = some σ ∧
        (r.rhs.mapM fun ρ => (Term.application ⟨6⟩ [.application ⟨3⟩ [], .application ⟨3⟩ []]).replace
          p (ρ.substitute σ)) = eagerTRS.rewrite
            (.application ⟨6⟩ [.application ⟨3⟩ [], .application ⟨3⟩ []]) .eager exampleSig ∧
        ∀ u ∈ (eagerTRS.rewrite (.application ⟨6⟩ [.application ⟨3⟩ [], .application ⟨3⟩ []])
            .eager exampleSig).getD [],
          u ∈ (eagerTRS.rewrite (.application ⟨6⟩ [.application ⟨3⟩ [], .application ⟨3⟩ []])
            .all exampleSig).getD [] :=
  have hlhs : ∀ r ∈ eagerTRS.rules, ∀ v, r.lhs ≠ .variable v := by
    intro r hr v h
    simp only [eagerTRS, List.mem_singleton] at hr
    subst hr
    cases h
  have hrhs : ∀ r ∈ eagerTRS.rules, r.rhs ≠ [] := by decide
  have ht : ∃ q s, (Term.application ⟨6⟩ [.application ⟨3⟩ [], .application ⟨3⟩ []]).subtermAt q =
      some s ∧ eagerTRS.isRedex s := ⟨[0], _, rfl, by decide⟩
  ⟨hlhs, hrhs, ht, rewriteEager_leftmost_innermost hlhs hrhs exampleSig ht⟩

/-- `A` with no clause, then `A = B`. -/
def clauselessTRS : TRS :=
  ⟨false, [⟨.application ⟨1⟩ [], []⟩, ⟨.application ⟨1⟩ [], [.application ⟨2⟩ []]⟩]⟩

/-- A rule without clauses: in `A = (no clause); A = B` the root `A` is the leftmost-innermost
redex and the first rule whose LHS matches it has no clause, so its clauses give no term; but
`rewrite_head` passes over a rule whose rewrites are empty, and `Eager` rewrites `A` to `B`. -/
theorem rewriteEager_clauseless :
    clauselessTRS.liPos (.application ⟨1⟩ []) = some [] ∧
      (Term.application ⟨1⟩ []).subtermAt [] = some (.application ⟨1⟩ []) ∧
      clauselessTRS.rules.find? (fun r => (Term.pmatch r.lhs (.application ⟨1⟩ [])).isSome) =
        some ⟨.application ⟨1⟩ [], []⟩ ∧
      Term.pmatch (.application ⟨1⟩ []) (.application ⟨1⟩ []) = some [] ∧
      (([] : List Term).mapM fun ρ => (Term.application ⟨1⟩ []).replace [] (ρ.substitute [])) ≠
        clauselessTRS.rewrite (.application ⟨1⟩ []) .eager exampleSig := by
  decide

end TRS

end TermRewriting
