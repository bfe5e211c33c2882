import TermRewriting.Types.Unify

/-! Rules (`types/rule.rs`). The rule module is not among the sources: its operations are
modelled from the spec, as far as `types/trs.rs` calls them. -/
namespace TermRewriting

/-- A left-hand side and its ordered right-hand-side clauses. The fields are public, so the
type carries no invariant; `Rule.Valid` states the one `Rule::new` checks. -/
structure Rule where
  lhs : Term
  rhs : List Term
  deriving DecidableEq, Repr

namespace Rule

/-- Modelled from the spec: the rule invariants. -/
def isValid (lhs : Term) (rhs : List Term) : Bool :=
  (match lhs with
    | .variable _ => false
    | .application _ _ => true) &&
  rhs.all (fun t => t.vars.all (· ∈ lhs.vars)) && !rhs.isEmpty

/-- Modelled from the spec: `Rule::new` builds a rule exactly when the invariants hold. -/
def new (lhs : Term) (rhs : List Term) : Option Rule :=
  if isValid lhs rhs then some ⟨lhs, rhs⟩ else none

/-- The invariants of a rule: its LHS is not a variable, every variable of a clause occurs in
the LHS, and there is at least one clause. -/
structure Valid (r : Rule) : Prop where
  lhs_not_variable : ∀ v, r.lhs ≠ .variable v
  rhs_vars : ∀ t ∈ r.rhs, ∀ v ∈ t.vars, v ∈ r.lhs.vars
  rhs_ne_nil : r.rhs ≠ []

theorem isValid_iff (r : Rule) : isValid r.lhs r.rhs = true ↔ r.Valid := by
  obtain ⟨lhs, rhs⟩ := r
  cases lhs with
  | «variable» v =>
    simp only [isValid, Bool.false_and, Bool.false_eq_true, false_iff]
    exact fun h => h.lhs_not_variable v rfl
  | application f as =>
    simp only [isValid, Bool.true_and, Bool.and_eq_true, List.all_eq_true, decide_eq_true_eq,
      Bool.not_eq_true', List.isEmpty_eq_false]
    exact ⟨fun h => ⟨fun v hv => (by cases hv), h.1, h.2⟩, fun h => ⟨h.rhs_vars, h.rhs_ne_nil⟩⟩

instance (r : Rule) : Decidable r.Valid := decidable_of_iff _ (isValid_iff r)

/-- `Rule::len`: the number of clauses. -/
def len (r : Rule) : Nat := r.rhs.length

/-- `Rule::is_empty`: no clause is left. -/
def isEmpty (r : Rule) : Bool := r.rhs.isEmpty

/-- Modelled from the spec: `Rule::rewrite`, the clauses instantiated by the match of the LHS
against `t`, in RHS order; nothing when the LHS does not match. -/
def rewrite (r : Rule) (t : Term) : List Term :=
  match Term.pmatch r.lhs t with
  | some σ => r.rhs.map (·.substitute σ)
  | none => []

/-- Modelled from the spec: `Rule::merge`; when the LHS of `other` is α-equivalent to this one,
its α-renamed clauses not already present are appended. -/
def merge (r other : Rule) : Rule :=
  match Term.alpha other.lhs r.lhs with
  | some σ =>
    { r with rhs := other.rhs.foldl (fun rhs c =>
        if c.substitute σ ∈ rhs then rhs else rhs ++ [c.substitute σ]) r.rhs }
  | none => r

/-- Modelled from the spec: `Rule::discard`; when the LHS of `other` is α-equivalent to this
one, the clauses equal to an α-renamed clause of `other` are removed and the renamed rule is
returned as the discarded one. Otherwise nothing changes. -/
def discard (r other : Rule) : Option Rule × Rule :=
  match Term.alpha other.lhs r.lhs with
  | some σ =>
    let terms := other.rhs.map (·.substitute σ)
    (Rule.new (other.lhs.substitute σ) terms, { r with rhs := r.rhs.filter (· ∉ terms) })
  | none => (none, r)

@[simp] theorem merge_lhs (r other : Rule) : (r.merge other).lhs = r.lhs := by
  unfold merge
  split <;> rfl

private theorem mem_foldl_append_iff (σ : Subst) :
    ∀ (cs acc : List Term) (x : Term),
      x ∈ cs.foldl (fun rhs c => if c.substitute σ ∈ rhs then rhs else rhs ++ [c.substitute σ])
        acc ↔ x ∈ acc ∨ ∃ c ∈ cs, x = c.substitute σ
  | [], _, _ => by simp
  | c :: cs, acc, x => by
    rw [List.foldl_cons, mem_foldl_append_iff σ cs _ x, List.exists_mem_cons_iff, ← or_assoc]
    refine or_congr_left ?_
    split_ifs with hin
    · exact ⟨.inl, fun h => h.elim id fun hx => hx ▸ hin⟩
    · simp

/-- The clauses of `merge`: this rule's, and the clauses of `other` renamed onto its LHS. -/
theorem mem_merge_iff {r other : Rule} {σ : Subst} (hσ : Term.alpha other.lhs r.lhs = some σ)
    {x : Term} : x ∈ (r.merge other).rhs ↔ x ∈ r.rhs ∨ ∃ c ∈ other.rhs, x = c.substitute σ := by
  unfold merge
  rw [hσ]
  exact mem_foldl_append_iff σ _ _ x

theorem merge_of_alpha_eq_none {r other : Rule} (h : Term.alpha other.lhs r.lhs = none) :
    r.merge other = r := by
  simp [merge, h]

/-- `merge` keeps every clause. -/
theorem mem_merge (r other : Rule) {x : Term} (hx : x ∈ r.rhs) : x ∈ (r.merge other).rhs := by
  cases hσ : Term.alpha other.lhs r.lhs with
  | none => rwa [merge_of_alpha_eq_none hσ]
  | some σ => exact (mem_merge_iff hσ).mpr (.inl hx)

/-- `merge` brings in every clause of `other`, renamed onto this rule's LHS. -/
theorem substitute_mem_merge {r other : Rule} {σ : Subst} (hσ : Term.alpha other.lhs r.lhs = some σ)
    {c : Term} (hc : c ∈ other.rhs) : c.substitute σ ∈ (r.merge other).rhs :=
  (mem_merge_iff hσ).mpr (.inr ⟨c, hc, rfl⟩)

theorem merge_rhs_ne_nil {r : Rule} (other : Rule) (h : r.rhs ≠ []) :
    (r.merge other).rhs ≠ [] := by
  obtain ⟨x, hx⟩ := List.exists_mem_of_ne_nil _ h
  exact List.ne_nil_of_mem (mem_merge r other hx)

@[simp] theorem discard_lhs (r other : Rule) : (r.discard other).2.lhs = r.lhs := by
  unfold discard
  split <;> rfl

theorem discard_rhs_sublist (r other : Rule) : (r.discard other).2.rhs.Sublist r.rhs := by
  unfold discard
  split
  · exact List.filter_sublist _
  · exact List.Sublist.refl _

/-! ### Instances of a valid rule -/

theorem mem_vars_substitute (σ : Subst) (v : Variable) : ∀ t : Term,
    v ∈ (t.substitute σ).vars ↔ ∃ x ∈ t.vars, v ∈ ((σ.lookup x).getD (.variable x)).vars := by
  refine Term.induction (fun x => by simp) (fun op args ih => ?_)
  simp only [Term.substitute_application, Term.vars_application, List.mem_flatMap,
    List.mem_map]
  constructor
  · rintro ⟨_, ⟨a, ha, rfl⟩, hv⟩
    obtain ⟨x, hx, hvx⟩ := (ih a ha).mp hv
    exact ⟨x, ⟨a, ha, hx⟩, hvx⟩
  · rintro ⟨x, ⟨a, ha, hx⟩, hvx⟩
    exact ⟨_, ⟨a, ha, rfl⟩, (ih a ha).mpr ⟨x, hx, hvx⟩⟩

/-- Two substitutions that instantiate the LHS of a valid rule alike instantiate its clauses
alike. -/
theorem rhs_substitute_eq {r : Rule} (hr : r.Valid) {σ τ : Subst}
    (h : r.lhs.substitute σ = r.lhs.substitute τ) :
    r.rhs.map (·.substitute σ) = r.rhs.map (·.substitute τ) :=
  List.map_congr_left fun c hc => Term.substitute_congr c fun v hv =>
    Term.agree_of_substitute_eq r.lhs h v (hr.rhs_vars c hc v hv)

/-- Any instance of a valid rule is valid: `Rule::new` accepts it. -/
theorem new_substitute_isSome {r : Rule} (hr : r.Valid) (σ : Subst) :
    (Rule.new (r.lhs.substitute σ) (r.rhs.map (·.substitute σ))).isSome := by
  have hv : (Rule.mk (r.lhs.substitute σ) (r.rhs.map (·.substitute σ))).Valid := by
    refine ⟨fun v hv => ?_, fun t ht v hvt => ?_, by simpa using hr.rhs_ne_nil⟩
    · dsimp only at hv
      cases hl : r.lhs with
      | «variable» w => exact hr.lhs_not_variable w hl
      | application f as => simp [hl] at hv
    · obtain ⟨c, hc, rfl⟩ := List.mem_map.mp ht
      obtain ⟨x, hx, hvx⟩ := (mem_vars_substitute σ v c).mp hvt
      exact (mem_vars_substitute σ v r.lhs).mpr ⟨x, hr.rhs_vars c hc x hx, hvx⟩
  simp [Rule.new, (isValid_iff ⟨_, _⟩).mpr hv]

/-- Discarding a valid rule returns a rule exactly when the LHSs are α-equivalent, and leaves
the rule unchanged when it returns nothing. -/
theorem discard_eq_none {r other : Rule} (ho : other.Valid) :
    (r.discard other).1 = none ↔ (r.discard other).2 = r ∧ Term.alpha other.lhs r.lhs = none := by
  unfold discard
  split
  · rename_i σ hσ
    simp only [hσ, reduceCtorEq, and_false, iff_false]
    have := new_substitute_isSome ho σ
    simpa [Option.isSome_iff_ne_none] using this
  · simp_all

end Rule

end TermRewriting
