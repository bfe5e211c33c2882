import TermRewriting.Rewrite.Eager

/-! The strategies `Eager` and `All` of `TRS::rewrite` against the rewrite relation of the
rules. For valid rules `rewrite_head` instantiates the clauses of the first rule whose LHS has
the term as an instance. `All` yields, at every position that holds an application, the
rewrites `rewrite_head` gives there, and nothing else; every rewrite either strategy yields is
one step of the relation, and when no two rules' LHSs share an instance `All` yields every
step. -/
namespace TermRewriting.TRS

/-- One rewrite step by the rules of a TRS: an instance of a clause replaces the same instance
of its rule's LHS, at the root or inside one argument. -/
inductive Rewrites (trs : TRS) : Term → Term → Prop
  | head {r : Rule} {c : Term} (σ : Subst) :
      r ∈ trs.rules → c ∈ r.rhs → Rewrites trs (r.lhs.substitute σ) (c.substitute σ)
  | arg {op : Operator} {args : List Term} {i : Nat} {a a' : Term} :
      args[i]? = some a → Rewrites trs a a' →
        Rewrites trs (.application op args) (.application op (args.set i a'))

@[simp] theorem subtermAt_cons (op : Operator) (args : List Term) (i : Nat) (p : List Nat) :
    (Term.application op args).subtermAt (i :: p) = args[i]?.bind (·.subtermAt p) := by
  simp only [Term.subtermAt]
  cases args[i]? <;> rfl

@[simp] theorem replace_cons (op : Operator) (args : List Term) (i : Nat) (p : List Nat)
    (v : Term) :
    (Term.application op args).replace (i :: p) v =
      args[i]?.bind fun a => (a.replace p v).map fun a' => .application op (args.set i a') := by
  simp only [Term.replace]
  cases args[i]? <;> rfl

/-- Every term `rewrite_head` gives is a step at the root. -/
theorem rewriteHead_sound {trs : TRS} {t : Term} {us : List Term}
    (h : trs.rewriteHead t = some us) : ∀ u ∈ us, trs.Rewrites t u := by
  obtain ⟨r, hr, hm⟩ := List.exists_of_findSome?_eq_some h
  split at hm
  · rename_i σ hσ
    split_ifs at hm
    cases hm
    intro u hu
    obtain ⟨c, hc, rfl⟩ := List.mem_map.mp hu
    rw [← Term.pmatch_sound hσ]
    exact .head σ hr hc
  · cases hm

/-- For valid rules, `rewrite_head` gives the clauses of the first rule whose LHS has the term
as an instance, under a substitution that takes the LHS to the term. -/
theorem rewriteHead_eq_some_iff {trs : TRS} (hv : ∀ r ∈ trs.rules, r.Valid) {t : Term}
    {us : List Term} :
    trs.rewriteHead t = some us ↔ ∃ l₁ r l₂ σ, trs.rules = l₁ ++ r :: l₂ ∧
      r.lhs.substitute σ = t ∧ us = r.rhs.map (·.substitute σ) ∧
      ∀ r' ∈ l₁, ∀ σ', r'.lhs.substitute σ' ≠ t := by
  rw [rewriteHead_eq (fun r hr => (hv r hr).rhs_ne_nil) t, Option.bind_eq_some]
  constructor
  · rintro ⟨r, hf, hm⟩
    obtain ⟨-, l₁, l₂, hl, hpre⟩ := List.find?_eq_some.mp hf
    obtain ⟨σ, hσ, rfl⟩ := Option.map_eq_some'.mp hm
    refine ⟨l₁, r, l₂, σ, hl, Term.pmatch_sound hσ, rfl, fun r' hr' σ' h => ?_⟩
    have hm := Term.pmatch_isSome_of_substitute (p := r'.lhs) σ'
    have hn := hpre r' hr'
    rw [h] at hm
    rw [hm] at hn
    exact absurd hn (by decide)
  · rintro ⟨l₁, r, l₂, σ, hl, hσ, rfl, hpre⟩
    obtain ⟨σ', hσ'⟩ := Option.isSome_iff_exists.mp (hσ ▸ Term.pmatch_isSome_of_substitute σ)
    have hr : r ∈ trs.rules := hl ▸ List.mem_append_right _ (.head _)
    refine ⟨r, List.find?_eq_some.mpr ⟨by rw [hσ']; rfl, l₁, l₂, hl, fun r' hr' => ?_⟩, ?_⟩
    · have hn : ¬(Term.pmatch r'.lhs t).isSome := fun h =>
        (Term.pmatch_isSome_iff.mp h).elim (hpre r' hr')
      simpa using hn
    · rw [hσ', Option.map_some']
      exact congrArg some (Rule.rhs_substitute_eq (hv r hr) ((Term.pmatch_sound hσ').trans hσ.symm))

/-- `A = B` and `H(x_) = x_`, whose LHSs share no instance. -/
def disjointRules : List Rule :=
  [⟨.application ⟨1⟩ [], [.application ⟨2⟩ []]⟩, ⟨.application ⟨7⟩ [.variable ⟨0⟩], [.variable ⟨0⟩]⟩]

theorem rewriteHead_eq_some_iff_disjoint :
    (∀ r ∈ disjointRules, r.Valid) ∧
      ((TRS.mk false disjointRules).rewriteHead (.application ⟨7⟩ [.application ⟨1⟩ []]) =
          some [.application ⟨1⟩ []] ↔
        ∃ l₁ r l₂ σ, disjointRules = l₁ ++ r :: l₂ ∧
          r.lhs.substitute σ = .application ⟨7⟩ [.application ⟨1⟩ []] ∧
          [.application ⟨1⟩ []] = r.rhs.map (·.substitute σ) ∧
          ∀ r' ∈ l₁, ∀ σ', r'.lhs.substitute σ' ≠ .application ⟨7⟩ [.application ⟨1⟩ []]) :=
  have hv : ∀ r ∈ disjointRules, r.Valid := by decide
  ⟨hv, @rewriteHead_eq_some_iff (TRS.mk false disjointRules) hv _ _⟩

/-! ### `All` -/

/-- Each rewrite of the argument loop of `rewrite_all` puts an `All` rewrite of one argument
back in its place. -/
theorem rewriteAllArgs_mem {trs : TRS} (term : Term) : ∀ (i : Nat) (rest : List Term) (u : Term),
    u ∈ trs.rewriteAllArgs term i rest → ∃ j a x, rest[j]? = some a ∧
      x ∈ (trs.rewriteAll a).getD [] ∧ u = (term.replace [i + j] x).getD term
  | _, [], _, h => by simp [rewriteAllArgs] at h
  | i, b :: rest, u, h => by
    simp only [rewriteAllArgs, List.mem_append, List.mem_map] at h
    rcases h with ⟨x, hx, rfl⟩ | h
    · exact ⟨0, b, x, List.getElem?_cons_zero, hx, rfl⟩
    · obtain ⟨j, a, x, hj, hx, rfl⟩ := rewriteAllArgs_mem term (i + 1) rest u h
      exact ⟨j + 1, a, x, by rwa [List.getElem?_cons_succ], hx, by
        rw [show i + (j + 1) = i + 1 + j by omega]⟩

/-- The rewrites of `All` at an application: its head rewrites, and one argument rewritten. -/
theorem mem_rewriteAll_application {trs : TRS} {op : Operator} {args : List Term} {u : Term} :
    u ∈ (trs.rewriteAll (.application op args)).getD [] ↔
      (∃ us, trs.rewriteHead (.application op args) = some us ∧ u ∈ us) ∨
        ∃ j a x, args[j]? = some a ∧ x ∈ (trs.rewriteAll a).getD [] ∧
          u = .application op (args.set j x) := by
  have hrep : ∀ j a x, args[j]? = some a →
      ((Term.application op args).replace [j] x).getD (.application op args) =
        .application op (args.set j x) := fun j a x hj => by
    rw [Term.replace_singleton, if_pos (List.getElem?_eq_some_iff.mp hj).1]
    rfl
  simp only [rewriteAll, Option.getD_some, List.mem_append]
  refine or_congr ?_ ⟨fun h => ?_, fun ⟨j, a, x, hj, hx, hu⟩ => ?_⟩
  · cases trs.rewriteHead (.application op args) <;> simp
  · obtain ⟨j, a, x, hj, hx, rfl⟩ := rewriteAllArgs_mem _ 0 args u h
    exact ⟨j, a, x, hj, hx, by rw [Nat.zero_add, hrep j a x hj]⟩
  · have := @mem_rewriteAllArgs trs (.application op args) 0 args j a x hj hx
    rwa [Nat.zero_add, hrep j a x hj, ← hu] at this

/-- `All` yields exactly the head rewrites at every position of the term that holds an
application: the rewrites of the first rule that matches there and has clauses, put back in
place. -/
theorem mem_rewriteAll_iff {trs : TRS} : ∀ (t u : Term), u ∈ (trs.rewriteAll t).getD [] ↔
    ∃ p op args us v, t.subtermAt p = some (.application op args) ∧
      trs.rewriteHead (.application op args) = some us ∧ v ∈ us ∧ t.replace p v = some u := by
  refine Term.induction (fun w u => ?_) (fun op args ih u => ?_)
  · simp only [rewriteAll, Option.getD_none, List.not_mem_nil, false_iff, not_exists, not_and]
    rintro (_ | ⟨i, p⟩) op args us v h <;> cases h
  · rw [mem_rewriteAll_application]
    constructor
    · rintro (⟨us, hus, hu⟩ | ⟨j, a, x, hj, hx, rfl⟩)
      · exact ⟨[], op, args, us, u, rfl, hus, hu, rfl⟩
      · obtain ⟨p, op', args', us, v, hp, hus, hv, hx⟩ :=
          (ih a (List.getElem?_mem hj) x).mp hx
        exact ⟨j :: p, op', args', us, v, by simp [hj, hp], hus, hv, by simp [hj, hx]⟩
    · rintro ⟨_ | ⟨j, p⟩, op', args', us, v, hp, hus, hv, hu⟩
      · cases hp
        cases hu
        exact .inl ⟨us, hus, hv⟩
      · simp only [subtermAt_cons, Option.bind_eq_some] at hp
        obtain ⟨a, hj, hp⟩ := hp
        simp only [replace_cons, hj, Option.some_bind, Option.map_eq_some'] at hu
        obtain ⟨x, hx, rfl⟩ := hu
        exact .inr ⟨j, a, x, hj,
          (ih a (List.getElem?_mem hj) x).mpr ⟨p, op', args', us, v, hp, hus, hv, hx⟩, rfl⟩

/-! ### Soundness -/

theorem rewriteAll_sound {trs : TRS} :
    ∀ t : Term, ∀ u ∈ (trs.rewriteAll t).getD [], trs.Rewrites t u := by
  refine Term.induction (fun w u hu => by simp [rewriteAll] at hu) (fun op args ih u hu => ?_)
  rcases mem_rewriteAll_application.mp hu with ⟨us, hus, hu⟩ | ⟨j, a, x, hj, hx, rfl⟩
  · exact rewriteHead_sound hus u hu
  · exact .arg hj (ih a (List.getElem?_mem hj) x hx)

theorem rewriteEager_sound {trs : TRS} :
    ∀ t : Term, ∀ u ∈ trs.rewriteEager t, trs.Rewrites t u := by
  refine Term.induction (fun w u hu => ?_) (fun op args ih u hu => ?_)
  · simp only [rewriteEager] at hu
    cases hh : trs.rewriteHead (.variable w) with
    | none => simp [hh] at hu
    | some us => exact rewriteHead_sound hh u (by simpa [hh] using hu)
  · simp only [rewriteEager] at hu
    cases ha : rewriteArgsFrom trs op [] args with
    | some res =>
      obtain ⟨j, a, x, hj, hx, rfl⟩ :=
        rewriteArgsFrom_mem op args [] res ha u (by simpa [ha] using hu)
      rw [List.nil_append] at hj ⊢
      exact .arg hj (ih a (List.getElem?_mem hj) x hx)
    | none =>
      cases hh : trs.rewriteHead (.application op args) with
      | none => simp [ha, hh] at hu
      | some us => exact rewriteHead_sound hh u (by simpa [ha, hh] using hu)

/-- Every term `TRS::rewrite` yields under `Eager` or `All` is one rewrite step of the rules:
an instance of a clause in place of the same instance of its rule's LHS. -/
theorem rewrite_sound (trs : TRS) (t : Term) (sig : Signature) :
    (∀ u ∈ (trs.rewrite t .eager sig).getD [], trs.Rewrites t u) ∧
      ∀ u ∈ (trs.rewrite t .all sig).getD [], trs.Rewrites t u :=
  ⟨rewriteEager_sound t, rewriteAll_sound t⟩

/-! ### Completeness of `All` -/

/-- On valid rules none of whose LHSs shares an instance with another's, `rewrite_head` at an
instance of a rule's LHS gives that rule's clauses under the instance. -/
theorem rewriteHead_substitute {trs : TRS} (hv : ∀ r ∈ trs.rules, r.Valid)
    (hno : ∀ r₁ ∈ trs.rules, ∀ r₂ ∈ trs.rules, ∀ σ₁ σ₂,
      r₁.lhs.substitute σ₁ = r₂.lhs.substitute σ₂ → r₁ = r₂)
    {r : Rule} (hr : r ∈ trs.rules) (σ : Subst) :
    trs.rewriteHead (r.lhs.substitute σ) = some (r.rhs.map (·.substitute σ)) := by
  rw [rewriteHead_eq (fun r hr => (hv r hr).rhs_ne_nil)]
  cases hf : trs.rules.find? fun r' => (Term.pmatch r'.lhs (r.lhs.substitute σ)).isSome with
  | none => exact absurd (Term.pmatch_isSome_of_substitute σ) (by simpa using List.find?_eq_none.mp hf r hr)
  | some r₀ =>
    have hm := List.find?_some hf
    obtain ⟨σ₀, hσ₀⟩ := Option.isSome_iff_exists.mp hm
    obtain rfl := hno r₀ (List.mem_of_find?_eq_some hf) r hr σ₀ σ (Term.pmatch_sound hσ₀)
    rw [Option.some_bind, hσ₀, Option.map_some']
    exact congrArg some (Rule.rhs_substitute_eq (hv r₀ hr) (Term.pmatch_sound hσ₀))

/-- On valid rules none of whose LHSs shares an instance with another's, `TRS::rewrite` under
`All` yields exactly the one-step rewrites of the term: every step of the rewrite relation, and
nothing else. -/
theorem rewrite_all_iff_rewrites {trs : TRS} (hv : ∀ r ∈ trs.rules, r.Valid)
    (hno : ∀ r₁ ∈ trs.rules, ∀ r₂ ∈ trs.rules, ∀ σ₁ σ₂,
      r₁.lhs.substitute σ₁ = r₂.lhs.substitute σ₂ → r₁ = r₂)
    (t : Term) (sig : Signature) (u : Term) :
    u ∈ (trs.rewrite t .all sig).getD [] ↔ trs.Rewrites t u := by
  simp only [rewrite, Option.getD_some]
  refine ⟨rewriteAll_sound t u, fun h => ?_⟩
  induction h with
  | @head r c σ hr hc =>
    have hl := (hv r hr).lhs_not_variable
    cases hlhs : r.lhs with
    | «variable» v => exact absurd hlhs (hl v)
    | application op args =>
      have hh := rewriteHead_substitute hv hno hr σ
      rw [hlhs, Term.substitute_application] at hh
      rw [Term.substitute_application]
      exact mem_rewriteAll_application.mpr (.inl ⟨_, hh, List.mem_map_of_mem _ hc⟩)
  | arg hi _ ih => exact mem_rewriteAll_application.mpr (.inr ⟨_, _, _, hi, ih, rfl⟩)

theorem rewrite_all_iff_rewrites_disjoint :
    (∀ r ∈ disjointRules, r.Valid) ∧
      (∀ r₁ ∈ disjointRules, ∀ r₂ ∈ disjointRules, ∀ σ₁ σ₂,
        r₁.lhs.substitute σ₁ = r₂.lhs.substitute σ₂ → r₁ = r₂) ∧
      (.application ⟨1⟩ [] ∈ ((TRS.mk false disjointRules).rewrite
          (.application ⟨7⟩ [.application ⟨1⟩ []]) .all exampleSig).getD [] ↔
        (TRS.mk false disjointRules).Rewrites (.application ⟨7⟩ [.application ⟨1⟩ []])
          (.application ⟨1⟩ [])) :=
  have hv : ∀ r ∈ disjointRules, r.Valid := by decide
  have hno : ∀ r₁ ∈ disjointRules, ∀ r₂ ∈ disjointRules, ∀ σ₁ σ₂,
      r₁.lhs.substitute σ₁ = r₂.lhs.substitute σ₂ → r₁ = r₂ := by
    simp only [disjointRules, List.mem_cons, List.mem_singleton, List.not_mem_nil, or_false]
    rintro r₁ (rfl | rfl) r₂ (rfl | rfl) σ₁ σ₂ h <;> simp_all
  ⟨hv, hno, @rewrite_all_iff_rewrites (TRS.mk false disjointRules) hv hno _ _ _⟩

end TermRewriting.TRS
