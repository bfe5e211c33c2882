import TermRewriting.Trs.Invariant
import Mathlib.Data.List.Pairwise

/-! Where the rules go: `move_rule`, `push` and `TRS::new` on a TRS that satisfies the
invariants. Distinct LHSs make every lookup by LHS find the one rule of its α-class, so
`insert` after a removal never merges, `push` merges into the rule `get` finds or adds a fresh
one, and `TRS::new` keeps one rule per α-class of its input. -/
namespace TermRewriting.TRS

/-! ### Lookups under the invariants -/

theorem get_alpha {trs : TRS} {lhs : Term} {k : Nat} {R : Rule} (h : trs.get lhs = some (k, R)) :
    (Term.alpha lhs R.lhs).isSome := by
  unfold get at h
  have := List.find?_some h
  exact this

/-- Two rules at different indices of a TRS with the invariants are α-distinct. -/
theorem Inv.alphaDistinct_of_ne {trs : TRS} (h : trs.Inv) {i j : Nat} {A B : Rule}
    (hi : trs.rules[i]? = some A) (hj : trs.rules[j]? = some B) (hij : i ≠ j) :
    AlphaDistinct A B := by
  obtain ⟨hil, rfl⟩ := List.getElem?_eq_some_iff.mp hi
  obtain ⟨hjl, rfl⟩ := List.getElem?_eq_some_iff.mp hj
  rcases Nat.lt_or_gt_of_ne hij with hlt | hlt
  · exact List.pairwise_iff_getElem.mp h.lhs_distinct i j hil hjl hlt
  · exact (List.pairwise_iff_getElem.mp h.lhs_distinct j i hjl hil hlt).symm

/-- `get` finds every rule whose LHS is α-equivalent to `lhs`: there is only one. -/
theorem Inv.get_eq_some_of_alpha {trs : TRS} (h : trs.Inv) {lhs : Term} {k : Nat} {R : Rule}
    (hk : trs.rules[k]? = some R) (ha : (Term.alpha lhs R.lhs).isSome) :
    trs.get lhs = some (k, R) := by
  cases hg : trs.get lhs with
  | none =>
    have := get_eq_none.mp hg R (List.getElem?_mem hk)
    simp [this] at ha
  | some p =>
    obtain ⟨k', R'⟩ := p
    have hk' := get_eq_some hg
    have hR : (Term.alpha R'.lhs R.lhs).isSome := by
      rw [← Term.alpha_isSome_congr ha, Term.alpha_isSome_comm]
      exact get_alpha hg
    by_cases hkk : k' = k
    · subst hkk
      rw [hk'] at hk
      cases hk
      rfl
    · have := (h.alphaDistinct_of_ne hk' hk hkk).1
      simp [this] at hR

/-- Two rules of a TRS with the invariants whose LHSs are α-equivalent are one rule. -/
theorem Inv.eq_of_alpha {trs : TRS} (h : trs.Inv) {A B : Rule} (hA : A ∈ trs.rules)
    (hB : B ∈ trs.rules) (ha : (Term.alpha A.lhs B.lhs).isSome) : A = B := by
  by_contra hne
  have := (h.lhs_distinct.forall (fun _ _ => AlphaDistinct.symm) hA hB hne).1
  simp [this] at ha

theorem get_cons_self (trs : TRS) (rule : Rule) :
    ({ trs with rules := rule :: trs.rules } : TRS).get rule.lhs = some (0, rule) := by
  simp [get, List.enum_cons, Term.alpha_isSome_self]

/-- After the rule at `i` is removed, no rule is left with an α-equivalent LHS. -/
theorem get_eraseIdx {trs : TRS} (h : trs.Inv) {i : Nat} {rule : Rule}
    (hi : trs.rules[i]? = some rule) :
    ({ trs with rules := trs.rules.eraseIdx i } : TRS).get rule.lhs = none := by
  refine get_eq_none.mpr fun r hr => ?_
  obtain ⟨j, hji, hj⟩ := List.mem_eraseIdx_iff_getElem?.mp hr
  exact (h.alphaDistinct_of_ne hi hj hji.symm).1

/-- In a TRS with the invariants, the rules not α-equivalent to the rule `get` found are the
rules without that one. -/
theorem Inv.filter_not_alpha {trs : TRS} (h : trs.Inv) {lhs : Term} {k : Nat} {R : Rule}
    (hg : trs.get lhs = some (k, R)) :
    trs.rules.filter (fun s => !(Term.alpha lhs s.lhs).isSome) = trs.rules.eraseIdx k := by
  obtain ⟨hlt, hR⟩ := List.getElem?_eq_some_iff.mp (get_eq_some hg)
  have hsplit : trs.rules = trs.rules.take k ++ R :: trs.rules.drop (k + 1) := by
    rw [← hR, ← List.drop_eq_getElem_cons hlt, List.take_append_drop]
  have hp := h.lhs_distinct
  rw [hsplit, List.pairwise_append, List.pairwise_cons] at hp
  have hkeep : ∀ s, AlphaDistinct s R → (!(Term.alpha lhs s.lhs).isSome) = true := fun s hd => by
    rw [Term.alpha_isSome_comm, Term.alpha_isSome_congr (get_alpha hg), hd.1]
    rfl
  conv_lhs => rw [hsplit]
  rw [List.eraseIdx_eq_take_drop_succ, List.filter_append, List.filter_cons,
    if_neg (by simp [get_alpha hg]),
    List.filter_eq_self.mpr fun s hs => hkeep s (hp.2.2 s hs R (List.mem_cons_self _ _)),
    List.filter_eq_self.mpr fun s hs => hkeep s (hp.2.1.1 s hs).symm]

/-! ### `insert` and `move_rule` -/

theorem insertIdx_eraseIdx_of_getElem? {α : Type} {a : α} :
    ∀ {l : List α} {i : Nat}, l[i]? = some a → (l.eraseIdx i).insertIdx i a = l
  | [], _, h => by simp at h
  | b :: l, 0, h => by
    simp only [List.getElem?_cons_zero, Option.some.injEq] at h
    simp [h, List.insertIdx_zero]
  | b :: l, i + 1, h => by
    simp only [List.getElem?_cons_succ] at h
    simp [List.insertIdx_succ_cons, insertIdx_eraseIdx_of_getElem? h]

/-- `insert` when no rule has an α-equivalent LHS: the merge fails and the rule goes in at
`idx`. -/
theorem insert_of_get_none {trs : TRS} {idx : Nat} {rule : Rule} (hg : trs.get rule.lhs = none)
    (hidx : idx ≤ trs.rules.length) (hd : ¬(trs.isDeterministic = true ∧ rule.len > 1)) :
    trs.insert idx rule = (.ok (), { trs with rules := trs.rules.insertIdx idx rule }) := by
  have hc : ∃ e, trs.insertClauses rule = (.error e, trs) := by
    unfold insertClauses
    split_ifs
    · exact ⟨_, rfl⟩
    · rw [hg]
      exact ⟨_, rfl⟩
  obtain ⟨e, hc⟩ := hc
  unfold insert
  rw [hc]
  simp only [insertIdx]
  rw [if_neg hd, if_neg (by omega), if_neg (by simp [hg])]

/-- `insert` on a nondeterministic TRS with a rule of α-equivalent LHS at `k`: the clauses
are merged into that rule. -/
theorem insert_of_get_some {trs : TRS} (idx : Nat) {k : Nat} {rule R : Rule}
    (hnd : trs.isDeterministic = false) (hg : trs.get rule.lhs = some (k, R)) :
    trs.insert idx rule = (.ok (), { trs with rules := trs.rules.modify (·.merge rule) k }) := by
  simp [insert, insertClauses, hnd, hg]

/-- `move_rule(i, j)` on a TRS with the invariants: the rule at `i` is removed, `insert` finds
no rule to merge it into, and puts it back at `j`. -/
theorem moveRule_of_getElem? {trs : TRS} (h : trs.Inv) {i j : Nat} {rule : Rule}
    (hi : trs.rules[i]? = some rule) (hj : j < trs.rules.length) :
    trs.moveRule i j = (.ok (), { trs with rules := (trs.rules.eraseIdx i).insertIdx j rule }) := by
  have hlen : (trs.rules.eraseIdx i).length = trs.rules.length - 1 :=
    List.length_eraseIdx_of_lt (List.getElem?_eq_some_iff.mp hi).1
  unfold moveRule
  split_ifs with hij
  · simp only [removeIdx, hi]
    refine insert_of_get_none (get_eraseIdx h hi) (by dsimp only; omega) fun ⟨hdet, hl⟩ => ?_
    have := h.deterministic hdet rule (List.getElem?_mem hi)
    simp only [Rule.len] at hl
    omega
  · obtain rfl : i = j := not_not.mp hij
    rw [insertIdx_eraseIdx_of_getElem? hi]

/-- On a TRS with the invariants, in either mode, `move_rule(i, j)` for indices within the
TRS returns `Ok` and moves the rule at `i`, unchanged, to `j`; the other rules keep their
order, and no rule is lost, duplicated or merged. -/
theorem moveRule_reorders {trs : TRS} (h : trs.Inv) {i j : Nat} (hi : i < trs.len)
    (hj : j < trs.len) :
    trs.moveRule i j =
        (.ok (), { trs with rules := (trs.rules.eraseIdx i).insertIdx j (trs.rules.get ⟨i, hi⟩) }) ∧
      ((trs.rules.eraseIdx i).insertIdx j (trs.rules.get ⟨i, hi⟩)).Perm trs.rules := by
  have hr : trs.rules[i]? = some (trs.rules.get ⟨i, hi⟩) := by
    rw [List.get_eq_getElem]
    exact List.getElem?_eq_getElem _
  have hlen : (trs.rules.eraseIdx i).length = trs.rules.length - 1 := List.length_eraseIdx_of_lt hi
  have hback : (trs.rules.get ⟨i, hi⟩ :: trs.rules.eraseIdx i).Perm trs.rules := by
    conv_rhs => rw [← insertIdx_eraseIdx_of_getElem? hr]
    exact (List.perm_insertIdx _ _ (by simp only [len] at hi; omega)).symm
  exact ⟨moveRule_of_getElem? h hr hj,
    (List.perm_insertIdx _ _ (by simp only [len] at hj; omega)).trans hback⟩

/-- `A = B; C = D`. -/
def exampleRules : List Rule :=
  [⟨.application ⟨1⟩ [], [.application ⟨2⟩ []]⟩, ⟨.application ⟨3⟩ [], [.application ⟨4⟩ []]⟩]

theorem moveRule_reorders_example :
    (TRS.new exampleRules).Inv ∧ 0 < (TRS.new exampleRules).len ∧
      1 < (TRS.new exampleRules).len ∧
      ((TRS.new exampleRules).moveRule 0 1 = (.ok (), { TRS.new exampleRules with
          rules := ((TRS.new exampleRules).rules.eraseIdx 0).insertIdx 1
            ((TRS.new exampleRules).rules.get ⟨0, by decide⟩) }) ∧
        (((TRS.new exampleRules).rules.eraseIdx 0).insertIdx 1
          ((TRS.new exampleRules).rules.get ⟨0, by decide⟩)).Perm (TRS.new exampleRules).rules) :=
  have h : (TRS.new exampleRules).Inv := new_inv (by decide)
  ⟨h, by decide, by decide, moveRule_reorders h (by decide) (by decide)⟩

/-! ### `push` -/

/-- `push` on a nondeterministic TRS with a rule `R` of α-equivalent LHS at `k`: the clauses
are merged into `R`, and the merged rule moves to the front. -/
theorem push_of_get_some {trs : TRS} (h : trs.Inv) (hnd : trs.isDeterministic = false)
    {rule R : Rule} {k : Nat} (hg : trs.get rule.lhs = some (k, R)) :
    trs.push rule = (.ok (), { trs with rules := R.merge rule :: trs.rules.eraseIdx k }) := by
  have hc : trs.insertClauses rule =
      (.ok (), { trs with rules := trs.rules.modify (·.merge rule) k }) := by
    simp [insertClauses, hnd, hg]
  have hi := inv_of_eq hc (insertClauses_inv h rule)
  have hk : (trs.rules.modify (·.merge rule) k)[k]? = some (R.merge rule) := by
    simp [List.getElem?_modify_eq, get_eq_some hg]
  have hg' := hi.get_eq_some_of_alpha hk (by rw [Rule.merge_lhs]; exact get_alpha hg)
  have hlt : k < (trs.rules.modify (·.merge rule) k).length := (List.getElem?_eq_some_iff.mp hk).1
  unfold push
  rw [insert_of_get_some 0 hnd hg]
  simp only
  rw [hg']
  simp only
  rw [moveRule_of_getElem? hi hk (by dsimp only; omega), List.insertIdx_zero,
    List.eraseIdx_modify_of_eq]

/-- `push` when no rule has an α-equivalent LHS, and a deterministic TRS gets a single
clause: the rule goes in at the front. -/
theorem push_of_get_none {trs : TRS} {rule : Rule} (hg : trs.get rule.lhs = none)
    (hd : ¬(trs.isDeterministic = true ∧ rule.len > 1)) :
    trs.push rule = (.ok (), { trs with rules := rule :: trs.rules }) := by
  unfold push
  rw [insert_of_get_none hg (Nat.zero_le _) hd, List.insertIdx_zero]
  simp only
  rw [get_cons_self]
  simp [moveRule]

/-- `push` on a deterministic TRS fails, and leaves it as it was, when the rule has more than
one clause or its LHS is taken. -/
theorem push_of_deterministic {trs : TRS} (hd : trs.isDeterministic = true) {rule : Rule}
    (h : rule.len > 1 ∨ (trs.get rule.lhs).isSome) : ∃ e, trs.push rule = (.error e, trs) := by
  have hins : ∃ e, trs.insert 0 rule = (.error e, trs) := by
    by_cases hl : rule.len > 1
    · simp [insert, insertClauses, insertIdx, hd, hl]
    · simp [insert, insertClauses, insertIdx, hd, hl, h.resolve_left hl]
  obtain ⟨e, hins⟩ := hins
  exact ⟨e, by simp only [push, hins]⟩

/-- `push` on a TRS with the invariants. A nondeterministic TRS takes every rule: one with an
LHS α-equivalent to that of the rule `R` at `k` is merged into `R`, which moves to the front;
any other goes in at the front. A deterministic TRS takes exactly the rules with one clause
and a fresh LHS, at the front. -/
theorem push_moves_to_front {trs : TRS} (h : trs.Inv) {rule : Rule} (hv : rule.Valid) :
    (trs.isDeterministic = false →
      (∀ k R, trs.rules[k]? = some R → (Term.alpha rule.lhs R.lhs).isSome →
        trs.push rule = (.ok (), { trs with rules := R.merge rule :: trs.rules.eraseIdx k })) ∧
      ((∀ R ∈ trs.rules, Term.alpha rule.lhs R.lhs = none) →
        trs.push rule = (.ok (), { trs with rules := rule :: trs.rules }))) ∧
    (trs.isDeterministic = true →
      ((trs.push rule).1 = .ok () ↔
        rule.len = 1 ∧ ∀ R ∈ trs.rules, Term.alpha rule.lhs R.lhs = none) ∧
      ((trs.push rule).1 = .ok () → (trs.push rule).2 = { trs with rules := rule :: trs.rules })) := by
  have hpos : 0 < rule.len := List.length_pos.mpr hv.rhs_ne_nil
  refine ⟨fun hnd => ⟨fun k R hk ha => push_of_get_some h hnd (h.get_eq_some_of_alpha hk ha),
    fun hn => push_of_get_none (get_eq_none.mpr hn) (by simp [hnd])⟩, fun hd => ?_⟩
  have hok : rule.len = 1 → (∀ R ∈ trs.rules, Term.alpha rule.lhs R.lhs = none) →
      trs.push rule = (.ok (), { trs with rules := rule :: trs.rules }) := fun hl hn =>
    push_of_get_none (get_eq_none.mpr hn) fun ⟨_, hgt⟩ => by omega
  have hfwd : (trs.push rule).1 = .ok () →
      rule.len = 1 ∧ ∀ R ∈ trs.rules, Term.alpha rule.lhs R.lhs = none := by
    intro hp
    by_contra hc
    have hfail : rule.len > 1 ∨ (trs.get rule.lhs).isSome := by
      by_cases hl : rule.len = 1
      · refine .inr (Option.ne_none_iff_isSome.mp fun hg => hc ⟨hl, get_eq_none.mp hg⟩)
      · exact .inl (by omega)
    obtain ⟨e, he⟩ := push_of_deterministic hd hfail
    rw [he] at hp
    cases hp
  refine ⟨⟨hfwd, fun ⟨hl, hn⟩ => by rw [hok hl hn]⟩, fun hp => ?_⟩
  obtain ⟨hl, hn⟩ := hfwd hp
  rw [hok hl hn]

/-- `A = E`, whose LHS is that of the first rule of `exampleRules`. -/
def exampleRule : Rule := ⟨.application ⟨1⟩ [], [.application ⟨5⟩ []]⟩

theorem push_moves_to_front_example :
    (TRS.new exampleRules).Inv ∧ exampleRule.Valid ∧
      ((TRS.new exampleRules).isDeterministic = false →
        (∀ k R, (TRS.new exampleRules).rules[k]? = some R →
          (Term.alpha exampleRule.lhs R.lhs).isSome →
          (TRS.new exampleRules).push exampleRule = (.ok (), { TRS.new exampleRules with
            rules := R.merge exampleRule :: (TRS.new exampleRules).rules.eraseIdx k })) ∧
        ((∀ R ∈ (TRS.new exampleRules).rules, Term.alpha exampleRule.lhs R.lhs = none) →
          (TRS.new exampleRules).push exampleRule = (.ok (), { TRS.new exampleRules with
            rules := exampleRule :: (TRS.new exampleRules).rules }))) ∧
      ((TRS.new exampleRules).isDeterministic = true →
        (((TRS.new exampleRules).push exampleRule).1 = .ok () ↔ exampleRule.len = 1 ∧
          ∀ R ∈ (TRS.new exampleRules).rules, Term.alpha exampleRule.lhs R.lhs = none) ∧
        (((TRS.new exampleRules).push exampleRule).1 = .ok () →
          ((TRS.new exampleRules).push exampleRule).2 = { TRS.new exampleRules with
            rules := exampleRule :: (TRS.new exampleRules).rules })) :=
  have h : (TRS.new exampleRules).Inv := new_inv (by decide)
  have hv : exampleRule.Valid := by decide
  ⟨h, hv, push_moves_to_front h hv⟩

/-! ### `pushes` and `TRS::new` -/

theorem push_ok {trs : TRS} (h : trs.Inv) (hnd : trs.isDeterministic = false) (rule : Rule) :
    ∃ rules, trs.push rule = (.ok (), { trs with rules := rules }) := by
  cases hg : trs.get rule.lhs with
  | none => exact ⟨_, push_of_get_none hg (by simp [hnd])⟩
  | some p => exact ⟨_, push_of_get_some h hnd hg⟩

theorem pushesLoop_append : ∀ (l₁ l₂ : List Rule) (trs : TRS),
    pushesLoop (l₁ ++ l₂) trs =
      match pushesLoop l₁ trs with
      | (.ok (), trs) => pushesLoop l₂ trs
      | (.error e, trs) => (.error e, trs)
  | [], _, _ => rfl
  | rule :: l₁, l₂, trs => by
    simp only [List.cons_append, pushesLoop]
    rcases trs.push rule with ⟨e | ⟨⟩, t⟩
    · rfl
    · exact pushesLoop_append l₁ l₂ t

/-- On a nondeterministic TRS with the invariants, `pushes` never stops early. -/
theorem pushesLoop_ok : ∀ (rules : List Rule) {trs : TRS}, trs.Inv →
    trs.isDeterministic = false → (∀ r ∈ rules, r.rhs ≠ []) →
    ∃ rules', pushesLoop rules trs = (.ok (), { trs with rules := rules' })
  | [], trs, _, _, _ => ⟨trs.rules, rfl⟩
  | rule :: rules, trs, h, hnd, hr => by
    obtain ⟨rs, hp⟩ := push_ok h hnd rule
    have hi := inv_of_eq hp (push_inv h (hr rule (.head _)))
    obtain ⟨rs', hl⟩ := pushesLoop_ok rules hi hnd fun r hm => hr r (.tail _ hm)
    exact ⟨rs', by simp only [pushesLoop, hp]; exact hl⟩

/-- `TRS::new` pushes the rules last first: the first rule is pushed onto the TRS built from
the others. -/
theorem new_cons {rule : Rule} {rules : List Rule} (hr : ∀ r ∈ rules, r.rhs ≠ []) :
    TRS.new (rule :: rules) = ((TRS.new rules).push rule).2 := by
  obtain ⟨rs, hl⟩ := pushesLoop_ok rules.reverse (show (TRS.mk false []).Inv from
    ⟨List.Pairwise.nil, by simp, by simp⟩) rfl fun r hm => hr r (List.mem_reverse.mp hm)
  simp only [TRS.new, pushes, List.reverse_cons, pushesLoop_append, hl, pushesLoop]
  rcases (TRS.mk false rs).push rule with ⟨e | ⟨⟩, t⟩ <;> rfl

theorem new_isDeterministic : ∀ (rules : List Rule), (∀ r ∈ rules, r.rhs ≠ []) →
    (TRS.new rules).isDeterministic = false
  | [], _ => rfl
  | rule :: rules, hr => by
    have hnd := new_isDeterministic rules fun r hm => hr r (.tail _ hm)
    obtain ⟨rs, hp⟩ := push_ok (new_inv fun r hm => hr r (.tail _ hm)) hnd rule
    rw [new_cons fun r hm => hr r (.tail _ hm), hp]
    exact hnd

theorem exists_of_forall₂ {α β : Type} {P : α → β → Prop} :
    ∀ {l₁ : List α} {l₂ : List β}, List.Forall₂ P l₁ l₂ → ∀ b ∈ l₂, ∃ a ∈ l₁, P a b
  | _, _, .nil, b, hb => absurd hb (List.not_mem_nil b)
  | _, _, .cons hab h, b, hb => by
    rcases List.mem_cons.mp hb with rfl | hb
    · exact ⟨_, List.mem_cons_self _ _, hab⟩
    · obtain ⟨a, ha, hp⟩ := exists_of_forall₂ h b hb
      exact ⟨a, List.mem_cons_of_mem _ ha, hp⟩

/-- Filters that agree on related elements keep a `Forall₂` correspondence. -/
theorem forall₂_filter {α β : Type} {P Q : α → β → Prop} {p : α → Bool} {q : β → Bool}
    (hpq : ∀ a b, P a b → p a = q b) (hPQ : ∀ a b, P a b → q b = true → Q a b) :
    ∀ {l₁ : List α} {l₂ : List β}, List.Forall₂ P l₁ l₂ →
      List.Forall₂ Q (l₁.filter p) (l₂.filter q)
  | _, _, .nil => .nil
  | _, _, .cons (a := a) (b := b) hab h => by
    rw [List.filter_cons, List.filter_cons, hpq a b hab]
    split_ifs with hq
    · exact .cons (hPQ a b hab hq) (forall₂_filter hpq hPQ h)
    · exact forall₂_filter hpq hPQ h

/-- The first rule of each α-class of LHSs, in the order of the list. -/
def firstOfClasses : List Rule → List Rule
  | [] => []
  | r :: rs => r :: (firstOfClasses rs).filter fun s => !(Term.alpha r.lhs s.lhs).isSome

/-- Every rule is in the α-class of one of the first rules. -/
theorem exists_firstOfClasses : ∀ {rules : List Rule} {s : Rule}, s ∈ rules →
    ∃ rep ∈ firstOfClasses rules, (Term.alpha s.lhs rep.lhs).isSome
  | r :: rs, s, hs => by
    rcases List.mem_cons.mp hs with rfl | hs
    · exact ⟨s, List.mem_cons_self _ _, Term.alpha_isSome_self _⟩
    · obtain ⟨rep, hrep, ha⟩ := exists_firstOfClasses hs
      by_cases hr : (Term.alpha r.lhs rep.lhs).isSome
      · refine ⟨r, List.mem_cons_self _ _, ?_⟩
        rw [Term.alpha_isSome_congr hr]
        exact ha
      · exact ⟨rep, List.mem_cons_of_mem _ (List.mem_filter.mpr ⟨hrep, by simpa using hr⟩), ha⟩

/-- The first rules are in distinct α-classes. -/
theorem pairwise_firstOfClasses : ∀ rules : List Rule,
    (firstOfClasses rules).Pairwise fun a b => Term.alpha a.lhs b.lhs = none
  | [] => .nil
  | r :: rs => List.pairwise_cons.mpr ⟨fun s hs => by simpa using (List.mem_filter.mp hs).2,
      (pairwise_firstOfClasses rs).filter _⟩

/-- `R` stands for the α-class of `rep` among `rules`: its LHS is α-equivalent to that of
`rep`, and every clause of every rule of the class is a clause of `R`, renamed onto `R`'s
LHS. -/
def Represents (rules : List Rule) (R rep : Rule) : Prop :=
  (Term.alpha rep.lhs R.lhs).isSome ∧
    ∀ s ∈ rules, (Term.alpha s.lhs rep.lhs).isSome →
      ∀ c ∈ s.rhs, ∃ σ, Term.alpha s.lhs R.lhs = some σ ∧ c.substitute σ ∈ R.rhs

/-- A class a rule `r` is not in still has its representative once `r` joins the rules. -/
theorem Represents.cons {rules : List Rule} {r R rep : Rule} (h : Represents rules R rep)
    (hr : (!(Term.alpha r.lhs rep.lhs).isSome) = true) : Represents (r :: rules) R rep := by
  refine ⟨h.1, fun s hs hsr => ?_⟩
  rcases List.mem_cons.mp hs with rfl | hs
  · simp [hsr] at hr
  · exact h.2 s hs hsr

/-- Representatives of the classes cover every rule: each is α-equivalent to one of them,
which holds every instance of its clauses. -/
theorem Represents.covers {rules Rs : List Rule}
    (hF : List.Forall₂ (Represents rules) Rs (firstOfClasses rules)) :
    ∀ s ∈ rules, ∃ R ∈ Rs, (Term.alpha s.lhs R.lhs).isSome ∧ ∀ c ∈ s.rhs,
      ∃ σ, Term.alpha s.lhs R.lhs = some σ ∧ c.substitute σ ∈ R.rhs := by
  intro s hs
  obtain ⟨rep, hrep, hsrep⟩ := exists_firstOfClasses hs
  obtain ⟨R, hR, hRrep⟩ := exists_of_forall₂ hF rep hrep
  exact ⟨R, hR, by rw [← Term.alpha_isSome_congr hRrep.1]; exact hsrep, hRrep.2 s hs hsrep⟩

/-- The classes a new rule `r` is not in keep their representatives. -/
theorem Represents.filter {rules Rs reps : List Rule} (r : Rule)
    (hF : List.Forall₂ (Represents rules) Rs reps) :
    List.Forall₂ (Represents (r :: rules)) (Rs.filter fun R => !(Term.alpha r.lhs R.lhs).isSome)
      (reps.filter fun s => !(Term.alpha r.lhs s.lhs).isSome) :=
  forall₂_filter (fun R rep hR => by
      simp only [Term.alpha_isSome_congr (by rw [Term.alpha_isSome_comm]; exact hR.1 :
        (Term.alpha R.lhs rep.lhs).isSome)])
    (fun _ _ hR hq => hR.cons hq) hF

/-- `TRS::new` keeps one rule per α-class of its input, in the order of the classes' first
rules, and that rule holds every clause of the class. -/
theorem new_represents : ∀ rules : List Rule, (∀ r ∈ rules, r.rhs ≠ []) →
    List.Forall₂ (Represents rules) (TRS.new rules).rules (firstOfClasses rules)
  | [], _ => .nil
  | r :: rs, hr => by
    have hrs : ∀ x ∈ rs, x.rhs ≠ [] := fun x hx => hr x (List.mem_cons_of_mem _ hx)
    have hF := new_represents rs hrs
    have hi : (TRS.new rs).Inv := new_inv hrs
    have htail := Represents.filter r hF
    rw [new_cons hrs]
    simp only [firstOfClasses]
    cases hg : (TRS.new rs).get r.lhs with
    | none =>
      -- `r` opens a new class, pushed to the front
      have hn := get_eq_none.mp hg
      rw [push_of_get_none hg (by simp [new_isDeterministic rs hrs])]
      rw [List.filter_eq_self.mpr fun R hR => by simp [hn R hR]] at htail
      refine .cons ⟨Term.alpha_isSome_self _, fun s hs hsr c hc => ?_⟩ htail
      rcases List.mem_cons.mp hs with rfl | hs
      · obtain ⟨σ, hσ, hdiag⟩ := Term.alpha_self s.lhs
        exact ⟨σ, hσ, by rw [Term.substitute_of_diag hdiag]; exact hc⟩
      · obtain ⟨R, hR, hsR, -⟩ := Represents.covers hF s hs
        have : (Term.alpha r.lhs R.lhs).isSome := by
          rw [← Term.alpha_isSome_congr hsR, Term.alpha_isSome_comm]
          exact hsr
        simp [hn R hR] at this
    | some p =>
      -- `r` joins the class of `R`, merged and moved to the front
      obtain ⟨k, R⟩ := p
      rw [push_of_get_some hi (new_isDeterministic rs hrs) hg]
      rw [hi.filter_not_alpha hg] at htail
      refine .cons ⟨by rw [Rule.merge_lhs]; exact get_alpha hg, fun s hs hsr c hc => ?_⟩ htail
      rw [Rule.merge_lhs]
      rcases List.mem_cons.mp hs with rfl | hs
      · obtain ⟨σ, hσ⟩ := Option.isSome_iff_exists.mp (get_alpha hg)
        exact ⟨σ, hσ, Rule.substitute_mem_merge hσ hc⟩
      · obtain ⟨R', hR', hsR', hcl⟩ := Represents.covers hF s hs
        have hRR : R' = R := by
          refine hi.eq_of_alpha hR' (List.getElem?_mem (get_eq_some hg)) ?_
          rw [← Term.alpha_isSome_congr (get_alpha hg), Term.alpha_isSome_comm,
            ← Term.alpha_isSome_congr hsR', Term.alpha_isSome_comm]
          exact hsr
        subst hRR
        obtain ⟨σ, hσ, hm⟩ := hcl c hc
        exact ⟨σ, hσ, Rule.mem_merge _ _ hm⟩

/-- With pairwise α-distinct LHSs, `TRS::new` keeps the rules as they are. -/
theorem new_of_pairwise : ∀ rules : List Rule, (∀ r ∈ rules, r.rhs ≠ []) →
    rules.Pairwise AlphaDistinct → (TRS.new rules).rules = rules
  | [], _, _ => rfl
  | r :: rs, hr, hp => by
    have hrs : ∀ x ∈ rs, x.rhs ≠ [] := fun x hx => hr x (List.mem_cons_of_mem _ hx)
    obtain ⟨hdist, hp⟩ := List.pairwise_cons.mp hp
    have ih := new_of_pairwise rs hrs hp
    have hg : (TRS.new rs).get r.lhs = none :=
      get_eq_none.mpr fun s hs => (hdist s (ih ▸ hs)).1
    rw [new_cons hrs, push_of_get_none hg (by simp [new_isDeterministic rs hrs]), ih]

/-- `TRS::new` gives a nondeterministic TRS with the invariants that drops no input: one rule
per α-class of the input's LHSs, at the place of the class's first rule, holding every clause
of the class renamed onto its LHS; input rules with pairwise α-distinct LHSs are kept as
they are. -/
theorem new_groups_alpha_classes (rules : List Rule) (hv : ∀ r ∈ rules, r.Valid) :
    (TRS.new rules).isDeterministic = false ∧ (TRS.new rules).Inv ∧
      List.Forall₂ (Represents rules) (TRS.new rules).rules (firstOfClasses rules) ∧
      (rules.Pairwise AlphaDistinct → (TRS.new rules).rules = rules) :=
  have hr : ∀ r ∈ rules, r.rhs ≠ [] := fun r hm => (hv r hm).rhs_ne_nil
  ⟨new_isDeterministic rules hr, new_inv hr, new_represents rules hr, new_of_pairwise rules hr⟩

/-- `A = B; A = C`: two rules with one LHS. -/
def dupRules : List Rule :=
  [⟨.application ⟨1⟩ [], [.application ⟨2⟩ []]⟩, ⟨.application ⟨1⟩ [], [.application ⟨3⟩ []]⟩]

theorem new_groups_alpha_classes_example :
    (∀ r ∈ dupRules, r.Valid) ∧
      ((TRS.new dupRules).isDeterministic = false ∧ (TRS.new dupRules).Inv ∧
        List.Forall₂ (Represents dupRules) (TRS.new dupRules).rules (firstOfClasses dupRules) ∧
        (dupRules.Pairwise AlphaDistinct → (TRS.new dupRules).rules = dupRules)) :=
  have hv : ∀ r ∈ dupRules, r.Valid := by decide
  ⟨hv, new_groups_alpha_classes dupRules hv⟩

/-- The last rule is pushed first, so the class's rule keeps its clauses ahead of the first's. -/
example : (TRS.new dupRules).rules =
    [⟨.application ⟨1⟩ [], [.application ⟨3⟩ [], .application ⟨2⟩ []]⟩] := by
  decide

end TermRewriting.TRS
