import TermRewriting.Rewrite.Semantics
import TermRewriting.Trs.Errors
import TermRewriting.Trs.RoundTrip

/-! The rewrite relation of a TRS under the calls of its API (`types/trs.rs`). One rule list
covers another when every root step of the other is one of its own, and a TRS whose rules
cover those of another rewrites whatever the other does. Every call leaves, on the `Ok` and on
the `Err` path alike, rules that the rules before it and the rules it was given cover, so no
sequence of calls rewrites beyond them. A successful `insert`, and a successful `push` on a
TRS with the invariants, rewrite exactly as the rules before with the new rule added, also
when its clauses are merged, α-renamed, into a rule already there; so `TRS::new` rewrites
exactly as the list of rules it is given. -/
namespace TermRewriting.TRS

/-! ### Covering -/

/-- Every root step of the rule `r` is a root step of a rule of `rules`: each instance of a
clause, with the same instance of the LHS, is an instance of a clause of a rule of `rules`. -/
def Covered (rules : List Rule) (r : Rule) : Prop :=
  ∀ c ∈ r.rhs, ∀ σ : Subst, ∃ r' ∈ rules, ∃ c' ∈ r'.rhs, ∃ σ' : Subst,
    r'.lhs.substitute σ' = r.lhs.substitute σ ∧ c'.substitute σ' = c.substitute σ

/-- Every root step of `rules` is a root step of `rules'`. -/
def Covers (rules rules' : List Rule) : Prop := ∀ r ∈ rules, Covered rules' r

theorem Covered.mono {l l' : List Rule} {r : Rule} (h : Covered l r) (hs : l ⊆ l') :
    Covered l' r := fun c hc σ => by
  obtain ⟨r', hr', hrest⟩ := h c hc σ
  exact ⟨r', hs hr', hrest⟩

/-- A rule with the LHS of a rule of `rules` and some of its clauses is covered. -/
theorem covered_of_sub {rules : List Rule} {r r' : Rule} (hr : r ∈ rules) (hl : r'.lhs = r.lhs)
    (hs : r'.rhs ⊆ r.rhs) : Covered rules r' :=
  fun c hc σ => ⟨r, hr, c, hs hc, σ, by rw [hl], rfl⟩

theorem covered_of_mem {rules : List Rule} {r : Rule} (hr : r ∈ rules) : Covered rules r :=
  covered_of_sub hr rfl (List.Subset.refl _)

theorem Covered.trans {l l' : List Rule} {r : Rule} (h : Covered l r) (hl : Covers l l') :
    Covered l' r := fun c hc σ => by
  obtain ⟨r₁, hr₁, c₁, hc₁, σ₁, hl₁, hc₁'⟩ := h c hc σ
  obtain ⟨r₂, hr₂, c₂, hc₂, σ₂, hl₂, hc₂'⟩ := hl r₁ hr₁ c₁ hc₁ σ₁
  exact ⟨r₂, hr₂, c₂, hc₂, σ₂, hl₂.trans hl₁, hc₂'.trans hc₁'⟩

theorem covers_of_subset {l l' : List Rule} (h : l ⊆ l') : Covers l l' :=
  fun _ hr => covered_of_mem (h hr)

theorem Covers.trans {l₁ l₂ l₃ : List Rule} (h₁ : Covers l₁ l₂) (h₂ : Covers l₂ l₃) :
    Covers l₁ l₃ := fun r hr => (h₁ r hr).trans h₂

theorem Covers.mono {l l₁ l₂ : List Rule} (h : Covers l l₁) (hs : l₁ ⊆ l₂) : Covers l l₂ :=
  fun r hr => (h r hr).mono hs

theorem Covers.cons {r : Rule} {l l' : List Rule} (hr : Covered l' r) (h : Covers l l') :
    Covers (r :: l) l' := fun _ hs => (List.mem_cons.mp hs).elim (· ▸ hr) (h _)

theorem Covers.cons_cons {l l' : List Rule} (h : Covers l l') (r : Rule) :
    Covers (r :: l) (r :: l') :=
  (h.mono (List.subset_cons_self _ _)).cons (covered_of_mem (.head _))

theorem Covers.append {l₁ l₂ l' : List Rule} (h₁ : Covers l₁ l') (h₂ : Covers l₂ l') :
    Covers (l₁ ++ l₂) l' := fun _ hs => (List.mem_append.mp hs).elim (h₁ _) (h₂ _)

/-- A TRS whose rules cover those of another rewrites whatever the other does. -/
theorem Rewrites.of_covers {trs trs' : TRS} (h : Covers trs.rules trs'.rules) {t u : Term}
    (hr : trs.Rewrites t u) : trs'.Rewrites t u := by
  induction hr with
  | head σ hr hc =>
    obtain ⟨r', hr', c', hc', σ', hl, hc⟩ := h _ hr _ hc σ
    rw [← hl, ← hc]
    exact .head σ' hr' hc'
  | arg hi _ ih => exact .arg hi ih

/-! ### `merge` -/

/-- `merge` rewrites only as its two rules do: an instance of a renamed clause of `other` is
the clause under the renaming followed by the instance. -/
theorem covered_merge (r other : Rule) : Covered [r, other] (r.merge other) := by
  cases hσ : Term.alpha other.lhs r.lhs with
  | none =>
    rw [Rule.merge_of_alpha_eq_none hσ]
    exact covered_of_mem (.head _)
  | some σ =>
    intro x hx τ
    rcases (Rule.mem_merge_iff hσ).mp hx with hx | ⟨c, hc, rfl⟩
    · exact ⟨r, .head _, x, hx, τ, by rw [Rule.merge_lhs], rfl⟩
    · refine ⟨other, .tail _ (.head _), c, hc, Term.compose (other.lhs.vars ++ c.vars) σ τ, ?_,
        Term.substitute_compose c fun v hv => List.mem_append_right _ hv⟩
      rw [Term.substitute_compose _ fun v hv => List.mem_append_left _ hv, Term.alpha_sound hσ,
        Rule.merge_lhs]

/-- Every step of a valid rule `other` whose LHS is α-equivalent to that of `r` is a step of
`r.merge other`: the inverse renaming takes the renamed clause back to the clause. -/
theorem covered_of_merge {r other : Rule} (h : (Term.alpha other.lhs r.lhs).isSome)
    (hv : other.Valid) : Covered [r.merge other] other := by
  obtain ⟨σ, hσ⟩ := Option.isSome_iff_exists.mp h
  obtain ⟨ρ, hρ⟩ := Option.isSome_iff_exists.mp (Term.alpha_isSome_comm other.lhs r.lhs ▸ h)
  intro c hc τ
  have hback : (c.substitute σ).substitute ρ = c :=
    calc (c.substitute σ).substitute ρ = c.substitute (Term.compose c.vars σ ρ) :=
          (Term.substitute_compose c fun _ h => h).symm
      _ = c.substitute [] := Term.substitute_congr c fun v hvc => by
          obtain ⟨w, hw, hw'⟩ := Term.alpha_inverse hσ hρ v (hv.rhs_vars c hc v hvc)
          simp [Term.lookup_compose hvc, hw, hw']
      _ = c := Term.substitute_of_diag (by simp) c
  refine ⟨r.merge other, .head _, c.substitute σ, Rule.substitute_mem_merge hσ hc,
    Term.compose (r.lhs.vars ++ (c.substitute σ).vars) ρ τ, ?_, ?_⟩
  · rw [Rule.merge_lhs, Term.substitute_compose _ fun v hv => List.mem_append_left _ hv,
      Term.alpha_sound hρ]
  · rw [Term.substitute_compose _ fun v hv => List.mem_append_right _ hv, hback]

/-- `F(x_) = x_`. -/
def projRule : Rule := ⟨.application ⟨1⟩ [.variable ⟨0⟩], [.variable ⟨0⟩]⟩

/-- `F(y_) = G(y_)`, whose LHS is that of `projRule` up to renaming. -/
def wrapRule : Rule := ⟨.application ⟨1⟩ [.variable ⟨1⟩], [.application ⟨2⟩ [.variable ⟨1⟩]]⟩

/-- `F(x_) = x_ | G(x_)`: `wrapRule` merged into `projRule`. -/
def projWrapRule : Rule :=
  ⟨.application ⟨1⟩ [.variable ⟨0⟩], [.variable ⟨0⟩, .application ⟨2⟩ [.variable ⟨0⟩]]⟩

/-! ### Every call stays within the rules it is given -/

theorem insertIdx_covers (trs : TRS) (idx : Nat) (rule : Rule) :
    Covers (trs.insertIdx idx rule).2.rules (rule :: trs.rules) := by
  unfold insertIdx
  -- the three error branches leave the TRS as it was
  split_ifs with hd hlen <;> try exact covers_of_subset (List.subset_cons_self _ _)
  exact covers_of_subset (List.perm_insertIdx rule trs.rules (by omega)).subset

theorem insertClauses_covers (trs : TRS) (rule : Rule) :
    Covers (trs.insertClauses rule).2.rules (rule :: trs.rules) := by
  unfold insertClauses
  split
  · exact covers_of_subset (List.subset_cons_self _ _)
  split
  · intro r hr
    rcases mem_modify hr with hr | ⟨s, hs, rfl⟩
    · exact covered_of_mem (.tail _ hr)
    · exact (covered_merge s rule).mono (by simp [hs])
  · exact covers_of_subset (List.subset_cons_self _ _)

theorem insert_covers (trs : TRS) (idx : Nat) (rule : Rule) :
    Covers (trs.insert idx rule).2.rules (rule :: trs.rules) := by
  have hc := insertClauses_covers trs rule
  unfold insert
  split <;> rename_i heq <;> rw [heq] at hc
  · exact (insertIdx_covers _ idx rule).trans (hc.cons (covered_of_mem (.head _)))
  · exact hc

theorem removeIdx_covers (trs : TRS) (idx : Nat) : Covers (trs.removeIdx idx).2.rules trs.rules := by
  unfold removeIdx
  split
  · exact covers_of_subset (List.eraseIdx_sublist _ _).subset
  · exact covers_of_subset (List.Subset.refl _)

theorem remove_covers (trs : TRS) (lhs : Term) : Covers (trs.remove lhs).2.rules trs.rules := by
  unfold remove
  split
  · exact covers_of_subset (List.eraseIdx_sublist _ _).subset
  · exact covers_of_subset (List.Subset.refl _)

theorem removeClauses_covers (trs : TRS) (rule : Rule) :
    Covers (trs.removeClauses rule).2.rules trs.rules := by
  have hd : Covers (discardFirst rule trs.rules).2 trs.rules := fun r' hr' => by
    obtain ⟨r, hr, hl, hs⟩ := discardFirst_sublist rule trs.rules r' hr'
    exact covered_of_sub hr hl hs.subset
  unfold removeClauses
  split <;> rename_i heq <;> rw [heq] at hd
  · exact fun r hr => hd r (List.mem_filter.mp hr).1
  · exact hd

theorem moveRule_covers (trs : TRS) (i j : Nat) : Covers (trs.moveRule i j).2.rules trs.rules := by
  have hr := removeIdx_covers trs i
  unfold moveRule
  split
  · split <;> rename_i heq <;> rw [heq] at hr
    · exact (insert_covers _ j _).trans (hr.cons (covered_of_mem (mem_of_removeIdx heq)))
    · exact hr
  · exact covers_of_subset (List.Subset.refl _)

theorem push_covers (trs : TRS) (rule : Rule) :
    Covers (trs.push rule).2.rules (rule :: trs.rules) := by
  have hi := insert_covers trs 0 rule
  unfold push
  split <;> rename_i heq <;> rw [heq] at hi
  · split
    · exact (moveRule_covers _ _ _).trans hi
    · exact hi
  · exact hi

theorem pushesLoop_covers : ∀ (rules : List Rule) (trs : TRS),
    Covers (pushesLoop rules trs).2.rules (rules ++ trs.rules)
  | [], _ => covers_of_subset (List.Subset.refl _)
  | rule :: rules, trs => by
    have hp := push_covers trs rule
    have hs : rule :: trs.rules ⊆ rule :: (rules ++ trs.rules) :=
      List.cons_subset_cons rule (List.subset_append_right rules trs.rules)
    simp only [pushesLoop]
    split <;> rename_i heq <;> rw [heq] at hp
    · exact (pushesLoop_covers rules _).trans (Covers.append
        (covers_of_subset ((List.subset_append_left _ _).trans (List.subset_cons_self _ _)))
        (hp.mono hs))
    · exact hp.mono hs

theorem insertsIdxLoop_covers (idx : Nat) : ∀ (rules : List Rule) (trs : TRS),
    Covers (insertsIdxLoop idx rules trs).2.rules (rules ++ trs.rules)
  | [], _ => covers_of_subset (List.Subset.refl _)
  | rule :: rules, trs => by
    have hp := insertIdx_covers trs idx rule
    have hs : rule :: trs.rules ⊆ rule :: (rules ++ trs.rules) :=
      List.cons_subset_cons rule (List.subset_append_right rules trs.rules)
    simp only [insertsIdxLoop]
    split <;> rename_i heq <;> rw [heq] at hp
    · exact (insertsIdxLoop_covers idx rules _).trans (Covers.append
        (covers_of_subset ((List.subset_append_left _ _).trans (List.subset_cons_self _ _)))
        (hp.mono hs))
    · exact hp.mono hs

theorem replace_covers (trs : TRS) (idx : Nat) (rule1 rule2 : Rule) :
    Covers (trs.replace idx rule1 rule2).2.rules (rule2 :: trs.rules) := by
  have hr := removeClauses_covers trs rule1
  unfold replace
  split <;> rename_i heq <;> rw [heq] at hr
  · exact (insert_covers _ idx rule2).trans (hr.cons_cons rule2)
  · exact hr.mono (List.subset_cons_self _ _)

theorem makeDeterministic_covers (trs : TRS) : Covers trs.makeDeterministic.2.rules trs.rules := by
  unfold makeDeterministic
  split
  · intro r hr
    obtain ⟨s, hs, rfl⟩ := List.mem_map.mp hr
    exact covered_of_sub hs rfl (List.take_subset 1 s.rhs)
  · exact covers_of_subset (List.Subset.refl _)

/-- Each call leaves rules covered by its rule arguments and the rules before it. -/
theorem apply_covers (trs : TRS) : ∀ op : Op, Covers (trs.apply op).rules (op.ruleArgs ++ trs.rules)
  | .push rule => push_covers trs rule
  | .pushes rules => (pushesLoop_covers rules.reverse trs).mono fun _ hx => by simpa using hx
  | .insert idx rule => insert_covers trs idx rule
  | .insertIdx idx rule => insertIdx_covers trs idx rule
  | .insertsIdx idx rules =>
    (insertsIdxLoop_covers idx rules.reverse trs).mono fun _ hx => by simpa using hx
  | .insertClauses rule => insertClauses_covers trs rule
  | .remove lhs => remove_covers trs lhs
  | .removeIdx idx => removeIdx_covers trs idx
  | .removeClauses rule => (removeClauses_covers trs rule).mono (List.subset_cons_self _ _)
  | .replace idx rule1 rule2 => (replace_covers trs idx rule1 rule2).mono (List.subset_cons_self _ _)
  | .moveRule i j => moveRule_covers trs i j
  | .makeDeterministic => makeDeterministic_covers trs
  | .makeNondeterministic => covers_of_subset (List.Subset.refl _)

theorem run_covers : ∀ (ops : List Op) (trs : TRS),
    Covers (trs.run ops).rules (ops.flatMap Op.ruleArgs ++ trs.rules)
  | [], _ => covers_of_subset (List.Subset.refl _)
  | op :: ops, trs => (run_covers ops (trs.apply op)).trans (Covers.append
      (covers_of_subset fun _ hx => by simp only [List.flatMap_cons, List.mem_append] at hx ⊢; tauto)
      ((apply_covers trs op).mono fun _ hx => by
        simp only [List.flatMap_cons, List.mem_append] at hx ⊢; tauto))

/-- No sequence of calls of the `TRS` API, whatever each call returns, makes the TRS rewrite
beyond the rules the calls were given and the rules it started with. -/
theorem run_rewrites {trs : TRS} {ops : List Op} {t u : Term} (h : (trs.run ops).Rewrites t u) :
    ({ trs with rules := ops.flatMap Op.ruleArgs ++ trs.rules } : TRS).Rewrites t u :=
  Rewrites.of_covers (run_covers ops trs) h

/-- After `push(F(y_) = G(y_))` onto `F(x_) = x_`, the merged rule rewrites `F(A)` to `G(A)`,
a step of `F(y_) = G(y_)`. -/
theorem run_rewrites_push :
    ((TRS.mk false [projRule]).run [.push wrapRule]).Rewrites
        (.application ⟨1⟩ [.application ⟨3⟩ []]) (.application ⟨2⟩ [.application ⟨3⟩ []]) ∧
      ({ TRS.mk false [projRule] with
          rules := [Op.push wrapRule].flatMap Op.ruleArgs ++ [projRule] } : TRS).Rewrites
        (.application ⟨1⟩ [.application ⟨3⟩ []]) (.application ⟨2⟩ [.application ⟨3⟩ []]) :=
  have hrun : (TRS.mk false [projRule]).run [.push wrapRule] = TRS.mk false [projWrapRule] := by
    decide
  have h : ((TRS.mk false [projRule]).run [.push wrapRule]).Rewrites
      (.application ⟨1⟩ [.application ⟨3⟩ []]) (.application ⟨2⟩ [.application ⟨3⟩ []]) :=
    hrun ▸ @Rewrites.head _ projWrapRule (.application ⟨2⟩ [.variable ⟨0⟩])
      [(⟨0⟩, .application ⟨3⟩ [])] (.head _) (by decide)
  ⟨h, run_rewrites h⟩

/-! ### A successful insertion adds exactly the new rule -/

theorem covers_modify {f : Rule → Rule} (hf : ∀ r, Covered [f r] r) :
    ∀ (n : Nat) (l : List Rule), Covers l (l.modify f n)
  | _, [] => fun _ h => absurd h (List.not_mem_nil _)
  | 0, r :: l => by
    rw [List.modify_zero_cons]
    exact .cons ((hf r).mono (List.cons_subset.mpr ⟨.head _, List.nil_subset _⟩))
      (covers_of_subset (List.subset_cons_self _ _))
  | n + 1, r :: l => by
    rw [List.modify_succ_cons]
    exact (covers_modify hf n l).cons_cons r

/-- A successful `insert_clauses` of a valid rule covers the rule and every rule before. -/
theorem covers_insertClauses {trs trs' : TRS} {rule : Rule} (hv : rule.Valid)
    (h : trs.insertClauses rule = (.ok (), trs')) : Covers (rule :: trs.rules) trs'.rules := by
  unfold insertClauses at h
  split at h
  · cases h
  split at h
  · rename_i k R hg
    cases h
    have hk : (trs.rules.modify (·.merge rule) k)[k]? = some (R.merge rule) := by
      simp [List.getElem?_modify_eq, get_eq_some hg]
    exact .cons ((covered_of_merge (get_alpha hg) hv).mono
      (List.cons_subset.mpr ⟨List.getElem?_mem hk, List.nil_subset _⟩))
      (covers_modify (fun r => covered_of_sub (.head _) (Rule.merge_lhs r rule).symm
        fun _ hx => Rule.mem_merge r rule hx) k trs.rules)
  · cases h

/-- A successful `insert` of a valid rule covers the rule and every rule before. -/
theorem covers_insert {trs trs' : TRS} {idx : Nat} {rule : Rule} (hv : rule.Valid)
    (h : trs.insert idx rule = (.ok (), trs')) : Covers (rule :: trs.rules) trs'.rules := by
  unfold insert at h
  split at h <;> rename_i heq
  · obtain ⟨hidx, -, rfl⟩ := insertIdx_eq_ok h
    rw [insertClauses_error heq] at hidx ⊢
    exact covers_of_subset (List.perm_insertIdx rule trs.rules hidx).symm.subset
  · cases h
    exact covers_insertClauses hv heq

/-- A successful `insert` of a valid rule rewrites exactly as the rules before with the rule
added: merged, α-renamed, into the rule of α-equivalent LHS or put in as a rule of its own, its
clauses neither lose nor add a step. -/
theorem insert_rewrites {trs trs' : TRS} {idx : Nat} {rule : Rule} (hv : rule.Valid)
    (h : trs.insert idx rule = (.ok (), trs')) {t u : Term} :
    trs'.Rewrites t u ↔ ({ trs with rules := rule :: trs.rules } : TRS).Rewrites t u := by
  have hc := insert_covers trs idx rule
  rw [h] at hc
  exact ⟨Rewrites.of_covers hc, Rewrites.of_covers (covers_insert hv h)⟩

theorem insert_rewrites_merge :
    wrapRule.Valid ∧
      (TRS.mk false [projRule]).insert 0 wrapRule = (.ok (), TRS.mk false [projWrapRule]) ∧
      ((TRS.mk false [projWrapRule]).Rewrites (.application ⟨1⟩ [.application ⟨3⟩ []])
          (.application ⟨2⟩ [.application ⟨3⟩ []]) ↔
        ({ TRS.mk false [projRule] with rules := wrapRule :: [projRule] } : TRS).Rewrites
          (.application ⟨1⟩ [.application ⟨3⟩ []]) (.application ⟨2⟩ [.application ⟨3⟩ []])) :=
  have hv : wrapRule.Valid := by decide
  have h : (TRS.mk false [projRule]).insert 0 wrapRule = (.ok (), TRS.mk false [projWrapRule]) := by
    decide
  ⟨hv, h, insert_rewrites hv h⟩

/-- On a TRS with the invariants, a successful `push` of a valid rule covers the rule and
every rule before: the `move_rule` that brings the inserted rule to the front keeps every
rule. -/
theorem covers_push {trs trs' : TRS} (h : trs.Inv) {rule : Rule} (hv : rule.Valid)
    (hp : trs.push rule = (.ok (), trs')) : Covers (rule :: trs.rules) trs'.rules := by
  unfold push at hp
  split at hp <;> rename_i trs₁ heq
  · split at hp
    · rename_i k R hg
      have hk := get_eq_some hg
      have hlt := (List.getElem?_eq_some_iff.mp hk).1
      rw [moveRule_of_getElem? (inv_of_eq heq (insert_inv h 0 hv.rhs_ne_nil)) hk
        (Nat.zero_lt_of_lt hlt)] at hp
      cases hp
      have hperm : trs₁.rules.Perm (R :: trs₁.rules.eraseIdx k) := by
        conv_lhs => rw [← insertIdx_eraseIdx_of_getElem? hk]
        exact List.perm_insertIdx R _ (by rw [List.length_eraseIdx_of_lt hlt]; omega)
      refine (covers_insert hv heq).trans (covers_of_subset ?_)
      rw [List.insertIdx_zero]
      exact hperm.subset
    · cases hp
  · cases hp

/-- On a TRS with the invariants, a successful `push` of a valid rule rewrites exactly as the
rules before with the rule added. -/
theorem push_rewrites {trs trs' : TRS} (h : trs.Inv) {rule : Rule} (hv : rule.Valid)
    (hp : trs.push rule = (.ok (), trs')) {t u : Term} :
    trs'.Rewrites t u ↔ ({ trs with rules := rule :: trs.rules } : TRS).Rewrites t u := by
  have hc := push_covers trs rule
  rw [hp] at hc
  exact ⟨Rewrites.of_covers hc, Rewrites.of_covers (covers_push h hv hp)⟩

theorem push_rewrites_merge :
    (TRS.new [projRule]).Inv ∧ wrapRule.Valid ∧
      (TRS.new [projRule]).push wrapRule = (.ok (), TRS.mk false [projWrapRule]) ∧
      ((TRS.mk false [projWrapRule]).Rewrites (.application ⟨1⟩ [.application ⟨3⟩ []])
          (.application ⟨2⟩ [.application ⟨3⟩ []]) ↔
        ({ TRS.new [projRule] with rules := wrapRule :: (TRS.new [projRule]).rules } : TRS).Rewrites
          (.application ⟨1⟩ [.application ⟨3⟩ []]) (.application ⟨2⟩ [.application ⟨3⟩ []])) :=
  have h : (TRS.new [projRule]).Inv := new_inv (by decide)
  have hv : wrapRule.Valid := by decide
  have hp : (TRS.new [projRule]).push wrapRule = (.ok (), TRS.mk false [projWrapRule]) := by
    decide
  ⟨h, hv, hp, push_rewrites h hv hp⟩

theorem new_covers : ∀ rules : List Rule, (∀ r ∈ rules, r.Valid) →
    Covers (TRS.new rules).rules rules ∧ Covers rules (TRS.new rules).rules
  | [], _ => ⟨covers_of_subset (List.Subset.refl _), covers_of_subset (List.Subset.refl _)⟩
  | rule :: rules, hv => by
    have hne : ∀ r ∈ rules, r.rhs ≠ [] := fun r hr => (hv r (.tail _ hr)).rhs_ne_nil
    have hi := new_inv hne
    obtain ⟨rs, hp⟩ := push_ok hi (new_isDeterministic rules hne) rule
    obtain ⟨ih₁, ih₂⟩ := new_covers rules fun r hr => hv r (.tail _ hr)
    have hpc := push_covers (TRS.new rules) rule
    rw [hp] at hpc
    rw [new_cons hne, hp]
    exact ⟨hpc.trans (ih₁.cons_cons rule), (ih₂.cons_cons rule).trans
      (covers_push hi (hv rule (.head _)) hp)⟩

/-- `TRS::new` rewrites exactly as the list of valid rules it is given: merging the rules of
α-equivalent LHSs into one neither loses nor adds a step. -/
theorem new_rewrites {rules : List Rule} (hv : ∀ r ∈ rules, r.Valid) {t u : Term} :
    (TRS.new rules).Rewrites t u ↔ (TRS.mk false rules).Rewrites t u :=
  ⟨Rewrites.of_covers (new_covers rules hv).1, Rewrites.of_covers (new_covers rules hv).2⟩

theorem new_rewrites_merge :
    (∀ r ∈ [projRule, wrapRule], r.Valid) ∧
      ((TRS.new [projRule, wrapRule]).Rewrites (.application ⟨1⟩ [.application ⟨3⟩ []])
          (.application ⟨2⟩ [.application ⟨3⟩ []]) ↔
        (TRS.mk false [projRule, wrapRule]).Rewrites (.application ⟨1⟩ [.application ⟨3⟩ []])
          (.application ⟨2⟩ [.application ⟨3⟩ []])) :=
  have hv : ∀ r ∈ [projRule, wrapRule], r.Valid := by decide
  ⟨hv, new_rewrites hv⟩

end TermRewriting.TRS
