import TermRewriting.Types.Trs

/-! The invariants of a TRS (spec §3) and their preservation by every mutation of the API,
on the `Ok` and on the `Err` path alike. -/
namespace TermRewriting.TRS

/-- Two rules whose LHSs are not α-equivalent, in either direction. -/
def AlphaDistinct (r s : Rule) : Prop :=
  Term.alpha r.lhs s.lhs = none ∧ Term.alpha s.lhs r.lhs = none

theorem AlphaDistinct.symm {r s : Rule} (h : AlphaDistinct r s) : AlphaDistinct s r := ⟨h.2, h.1⟩

/-- No two rules have α-equivalent LHSs, every rule has a clause, and a deterministic TRS has
exactly one clause per rule. -/
structure Inv (trs : TRS) : Prop where
  lhs_distinct : trs.rules.Pairwise AlphaDistinct
  rhs_ne_nil : ∀ r ∈ trs.rules, r.rhs ≠ []
  deterministic : trs.isDeterministic = true → ∀ r ∈ trs.rules, r.rhs.length = 1

/-! ### `get` -/

theorem get_eq_none {trs : TRS} {lhs : Term} :
    trs.get lhs = none ↔ ∀ r ∈ trs.rules, Term.alpha lhs r.lhs = none := by
  simp only [get, List.find?_eq_none, Option.not_isSome_iff_eq_none]
  constructor
  · intro h r hr
    obtain ⟨i, hi⟩ := List.mem_iff_getElem?.mp hr
    exact h (i, r) (List.mem_enum_iff_getElem?.mpr hi)
  · exact fun h p hp => h p.2 (List.getElem?_mem (List.mem_enum_iff_getElem?.mp hp))

theorem get_eq_some {trs : TRS} {lhs : Term} {idx : Nat} {r : Rule}
    (h : trs.get lhs = some (idx, r)) : trs.rules[idx]? = some r :=
  List.mem_enum_iff_getElem?.mp (List.mem_of_find?_eq_some h)

/-! ### Sublists and insertion -/

theorem inv_of_eq {α : Type} {p : Except TRSError α × TRS} {e : Except TRSError α} {trs : TRS}
    (heq : p = (e, trs)) (h : p.2.Inv) : trs.Inv := by
  rw [heq] at h
  exact h

theorem Inv.sublist {trs : TRS} (h : trs.Inv) {rules : List Rule} (hs : rules.Sublist trs.rules) :
    Inv { trs with rules := rules } :=
  ⟨h.lhs_distinct.sublist hs, fun r hr => h.rhs_ne_nil r (hs.subset hr),
    fun hd r hr => h.deterministic hd r (hs.subset hr)⟩

theorem Inv.eraseIdx {trs : TRS} (h : trs.Inv) (idx : Nat) :
    Inv { trs with rules := trs.rules.eraseIdx idx } :=
  h.sublist (List.eraseIdx_sublist _ _)

theorem insertIdx_inv {trs : TRS} (h : trs.Inv) (idx : Nat) {rule : Rule} (hr : rule.rhs ≠ []) :
    (trs.insertIdx idx rule).2.Inv := by
  unfold insertIdx
  -- the three error branches leave the TRS as it was
  split_ifs with hd hlen hget <;> try exact h
  have hnone : ∀ s ∈ trs.rules, AlphaDistinct rule s := by
    intro s hs
    have h1 := get_eq_none.mp (Option.not_isSome_iff_eq_none.mp hget) s hs
    refine ⟨h1, ?_⟩
    rw [← Option.not_isSome_iff_eq_none, ← Term.alpha_isSome_comm, Option.not_isSome_iff_eq_none]
    exact h1
  have hperm := List.perm_insertIdx rule trs.rules (Nat.le_of_not_lt hlen)
  refine ⟨(hperm.pairwise_iff AlphaDistinct.symm).mpr
      (List.pairwise_cons.mpr ⟨hnone, h.lhs_distinct⟩), fun r hm => ?_, fun hdet r hm => ?_⟩
  · rcases List.mem_cons.mp (hperm.subset hm) with rfl | hm
    · exact hr
    · exact h.rhs_ne_nil r hm
  · rcases List.mem_cons.mp (hperm.subset hm) with rfl | hm
    · have : ¬ r.len > 1 := fun hl => hd ⟨hdet, hl⟩
      have := List.length_pos.mpr hr
      simp only [Rule.len] at *
      omega
    · exact h.deterministic hdet r hm

/-! ### Rewriting rules in place -/

/-- `AlphaDistinct` reads only the LHSs, so a rule list with the same LHSs keeps it. -/
theorem pairwise_of_map_lhs {rules rules' : List Rule} (he : rules'.map Rule.lhs = rules.map Rule.lhs)
    (h : rules.Pairwise AlphaDistinct) : rules'.Pairwise AlphaDistinct := by
  have hm : (rules.map Rule.lhs).Pairwise fun s t =>
      Term.alpha s t = none ∧ Term.alpha t s = none := List.pairwise_map.mpr h
  rw [← he] at hm
  exact (List.pairwise_map (R := fun s t => Term.alpha s t = none ∧ Term.alpha t s = none)).mp hm

theorem map_lhs_modify {f : Rule → Rule} (hf : ∀ r, (f r).lhs = r.lhs) :
    ∀ (n : Nat) (l : List Rule), (l.modify f n).map Rule.lhs = l.map Rule.lhs
  | _, [] => by cases ‹Nat› <;> rfl
  | 0, r :: l => by simp [List.modify, List.modifyTailIdx, hf]
  | n + 1, r :: l => congrArg (r.lhs :: ·) (map_lhs_modify hf n l)

theorem mem_modify {α : Type} {f : α → α} :
    ∀ {n : Nat} {l : List α} {x : α}, x ∈ l.modify f n → x ∈ l ∨ ∃ y ∈ l, x = f y
  | _, [], _, h => by cases ‹Nat› <;> simp [List.modify, List.modifyTailIdx] at h
  | 0, r :: l, x, h => by
    simp only [List.modify, List.modifyTailIdx, List.modifyHead_cons, List.mem_cons] at h
    rcases h with rfl | h
    · exact .inr ⟨r, .head _, rfl⟩
    · exact .inl (.tail _ h)
  | n + 1, r :: l, x, h => by
    rcases List.mem_cons.mp h with rfl | h
    · exact .inl (.head _)
    · rcases mem_modify h with h | ⟨y, hy, rfl⟩
      · exact .inl (.tail _ h)
      · exact .inr ⟨y, .tail _ hy, rfl⟩

theorem insertClauses_inv {trs : TRS} (h : trs.Inv) (rule : Rule) :
    (trs.insertClauses rule).2.Inv := by
  unfold insertClauses
  split
  · exact h
  rename_i hd
  split
  · refine ⟨pairwise_of_map_lhs (map_lhs_modify (fun r => Rule.merge_lhs r rule) _ _)
      h.lhs_distinct, fun r hr => ?_, fun hdet => absurd hdet hd⟩
    rcases mem_modify hr with hr | ⟨s, hs, rfl⟩
    · exact h.rhs_ne_nil r hr
    · exact Rule.merge_rhs_ne_nil rule (h.rhs_ne_nil s hs)
  · exact h

theorem insert_inv {trs : TRS} (h : trs.Inv) (idx : Nat) {rule : Rule} (hr : rule.rhs ≠ []) :
    (trs.insert idx rule).2.Inv := by
  have hc := insertClauses_inv h rule
  unfold insert
  split <;> rename_i heq
  · exact insertIdx_inv (inv_of_eq heq hc) idx hr
  · exact inv_of_eq heq hc

/-! ### Removal -/

theorem removeIdx_inv {trs : TRS} (h : trs.Inv) (idx : Nat) : (trs.removeIdx idx).2.Inv := by
  unfold removeIdx
  split
  · exact h.eraseIdx idx
  · exact h

theorem remove_inv {trs : TRS} (h : trs.Inv) (lhs : Term) : (trs.remove lhs).2.Inv := by
  unfold remove
  split
  · exact h.eraseIdx _
  · exact h

theorem discardFirst_map_lhs (rule : Rule) :
    ∀ rules : List Rule, (discardFirst rule rules).2.map Rule.lhs = rules.map Rule.lhs
  | [] => rfl
  | r :: rs => by
    have hl := Rule.discard_lhs r rule
    unfold discardFirst
    split <;> rename_i heq <;> rw [heq] at hl <;> dsimp only at hl
    · simp [hl]
    · simp [hl, discardFirst_map_lhs rule rs]

theorem discardFirst_sublist (rule : Rule) :
    ∀ rules : List Rule, ∀ r' ∈ (discardFirst rule rules).2,
      ∃ r ∈ rules, r'.lhs = r.lhs ∧ r'.rhs.Sublist r.rhs
  | [] => by simp [discardFirst]
  | r :: rs => by
    have hl := Rule.discard_lhs r rule
    have hs := Rule.discard_rhs_sublist r rule
    unfold discardFirst
    split <;> rename_i heq <;> rw [heq] at hl hs <;> intro r' hr' <;>
      rcases List.mem_cons.mp hr' with rfl | hr'
    · exact ⟨r, .head _, hl, hs⟩
    · exact ⟨r', .tail _ hr', rfl, .refl _⟩
    · exact ⟨r, .head _, hl, hs⟩
    · obtain ⟨s, hs, hsub⟩ := discardFirst_sublist rule rs r' hr'
      exact ⟨s, .tail _ hs, hsub⟩

/-- When no rule gives up a clause of a valid rule, every rule is left as it was. -/
theorem discardFirst_none {rule : Rule} (hv : rule.Valid) :
    ∀ rules : List Rule, (discardFirst rule rules).1 = none → (discardFirst rule rules).2 = rules
  | [], _ => rfl
  | r :: rs, hn => by
    have hd := Rule.discard_eq_none (r := r) hv
    unfold discardFirst at hn ⊢
    split at hn <;> rename_i heq
    · cases hn
    · rw [heq] at hd
      simp only [true_iff] at hd
      simp [hd.1, discardFirst_none hv rs hn]

theorem removeClauses_inv {trs : TRS} (h : trs.Inv) {rule : Rule} (hv : rule.Valid) :
    (trs.removeClauses rule).2.Inv := by
  have hlhs := discardFirst_map_lhs rule trs.rules
  have hsub := discardFirst_sublist rule trs.rules
  have hnone := discardFirst_none hv trs.rules
  unfold removeClauses
  split <;> rename_i heq <;> rw [heq] at hlhs hsub hnone
  · refine ⟨(pairwise_of_map_lhs hlhs h.lhs_distinct).sublist (List.filter_sublist _),
      fun r hr => ?_, fun hdet r hr => ?_⟩ <;>
      obtain ⟨hr, hne⟩ := List.mem_filter.mp hr <;>
      simp only [Rule.isEmpty, Bool.not_eq_true', List.isEmpty_eq_false] at hne
    · exact hne
    · obtain ⟨s, hs, -, hsub⟩ := hsub r hr
      have h1 := hsub.length_le
      have h2 := List.length_pos.mpr hne
      rw [h.deterministic hdet s hs] at h1
      omega
  · simp only [forall_const] at hnone
    rw [hnone]
    exact h

/-! ### Composite mutations -/

theorem mem_of_removeIdx {trs trs' : TRS} {i : Nat} {rule : Rule}
    (heq : trs.removeIdx i = (.ok rule, trs')) : rule ∈ trs.rules := by
  unfold removeIdx at heq
  split at heq
  · cases heq
    exact List.getElem?_mem ‹_›
  · cases heq

theorem moveRule_inv {trs : TRS} (h : trs.Inv) (i j : Nat) : (trs.moveRule i j).2.Inv := by
  unfold moveRule
  split
  · split <;> rename_i heq
    · exact insert_inv (inv_of_eq heq (removeIdx_inv h i)) j
        (h.rhs_ne_nil _ (mem_of_removeIdx heq))
    · exact inv_of_eq heq (removeIdx_inv h i)
  · exact h

theorem push_inv {trs : TRS} (h : trs.Inv) {rule : Rule} (hr : rule.rhs ≠ []) :
    (trs.push rule).2.Inv := by
  unfold push
  split <;> rename_i heq
  · have hi := inv_of_eq heq (insert_inv h 0 hr)
    split
    · exact moveRule_inv hi _ _
    · exact hi
  · exact inv_of_eq heq (insert_inv h 0 hr)

theorem pushesLoop_inv : ∀ (rules : List Rule) {trs : TRS}, trs.Inv →
    (∀ r ∈ rules, r.rhs ≠ []) → (pushesLoop rules trs).2.Inv
  | [], _, h, _ => h
  | rule :: rules, trs, h, hr => by
    have hp := push_inv h (hr rule (.head _))
    unfold pushesLoop
    split <;> rename_i heq
    · exact pushesLoop_inv rules (inv_of_eq heq hp) fun r hm => hr r (.tail _ hm)
    · exact inv_of_eq heq hp

theorem pushes_inv {trs : TRS} (h : trs.Inv) {rules : List Rule} (hr : ∀ r ∈ rules, r.rhs ≠ []) :
    (trs.pushes rules).2.Inv :=
  pushesLoop_inv _ h fun r hm => hr r (List.mem_reverse.mp hm)

theorem insertsIdxLoop_inv (idx : Nat) : ∀ (rules : List Rule) {trs : TRS}, trs.Inv →
    (∀ r ∈ rules, r.rhs ≠ []) → (insertsIdxLoop idx rules trs).2.Inv
  | [], _, h, _ => h
  | rule :: rules, trs, h, hr => by
    have hp := insertIdx_inv h idx (hr rule (.head _))
    unfold insertsIdxLoop
    split <;> rename_i heq
    · exact insertsIdxLoop_inv idx rules (inv_of_eq heq hp) fun r hm => hr r (.tail _ hm)
    · exact inv_of_eq heq hp

theorem insertsIdx_inv {trs : TRS} (h : trs.Inv) (idx : Nat) {rules : List Rule}
    (hr : ∀ r ∈ rules, r.rhs ≠ []) : (trs.insertsIdx idx rules).2.Inv :=
  insertsIdxLoop_inv idx _ h fun r hm => hr r (List.mem_reverse.mp hm)

theorem replace_inv {trs : TRS} (h : trs.Inv) (idx : Nat) {rule1 rule2 : Rule}
    (h1 : rule1.Valid) (h2 : rule2.rhs ≠ []) : (trs.replace idx rule1 rule2).2.Inv := by
  have hc := removeClauses_inv h h1
  unfold replace
  split <;> rename_i heq
  · exact insert_inv (inv_of_eq heq hc) idx h2
  · exact inv_of_eq heq hc

theorem makeDeterministic_inv {trs : TRS} (h : trs.Inv) : trs.makeDeterministic.2.Inv := by
  unfold makeDeterministic
  split
  · refine ⟨pairwise_of_map_lhs (by simp [Function.comp_def]) h.lhs_distinct,
      fun r hr => ?_, fun _ r hr => ?_⟩ <;> obtain ⟨s, hs, rfl⟩ := List.mem_map.mp hr
    · simpa using h.rhs_ne_nil s hs
    · have := List.length_pos.mpr (h.rhs_ne_nil s hs)
      simp only [List.length_take]
      omega
  · exact h

theorem makeNondeterministic_inv {trs : TRS} (h : trs.Inv) : trs.makeNondeterministic.2.Inv :=
  ⟨h.lhs_distinct, h.rhs_ne_nil, fun hd => by simp [makeNondeterministic] at hd⟩

theorem new_inv {rules : List Rule} (hr : ∀ r ∈ rules, r.rhs ≠ []) : (TRS.new rules).Inv :=
  pushes_inv ⟨List.Pairwise.nil, by simp, by simp⟩ hr

/-! ### Reachable states -/

/-- One call keeps the invariants when its rule arguments are valid. -/
theorem apply_inv {trs : TRS} (h : trs.Inv) : ∀ op : Op, op.Valid → (trs.apply op).Inv
  | .push _, hv => push_inv h (hv _ (.head _)).rhs_ne_nil
  | .pushes _, hv => pushes_inv h fun r hr => (hv r hr).rhs_ne_nil
  | .insert _ _, hv => insert_inv h _ (hv _ (.head _)).rhs_ne_nil
  | .insertIdx _ _, hv => insertIdx_inv h _ (hv _ (.head _)).rhs_ne_nil
  | .insertsIdx _ _, hv => insertsIdx_inv h _ fun r hr => (hv r hr).rhs_ne_nil
  | .insertClauses _, _ => insertClauses_inv h _
  | .remove _, _ => remove_inv h _
  | .removeIdx _, _ => removeIdx_inv h _
  | .removeClauses _, hv => removeClauses_inv h (hv _ (.head _))
  | .replace _ _ _, hv => replace_inv h _ (hv _ (.head _)) (hv _ (.tail _ (.head _))).rhs_ne_nil
  | .moveRule _ _, _ => moveRule_inv h _ _
  | .makeDeterministic, _ => makeDeterministic_inv h
  | .makeNondeterministic, _ => makeNondeterministic_inv h

theorem run_inv : ∀ {trs : TRS} (ops : List Op), trs.Inv → (∀ op ∈ ops, op.Valid) →
    (trs.run ops).Inv
  | _, [], h, _ => h
  | _, op :: ops, h, hv => run_inv ops (apply_inv h op (hv op (.head _))) fun o ho => hv o (.tail _ ho)

/-- Every mutation keeps the invariants, whether it returns `Ok` or `Err`; so does
`TRS::new`, and hence every TRS built by `TRS::new` and a sequence of calls satisfies them. -/
theorem inv_reachable :
    (∀ rules : List Rule, (∀ r ∈ rules, r.Valid) → (TRS.new rules).Inv) ∧
    (∀ (trs : TRS) (op : Op), trs.Inv → op.Valid → (trs.apply op).Inv) ∧
    (∀ (rules : List Rule) (ops : List Op), (∀ r ∈ rules, r.Valid) → (∀ op ∈ ops, op.Valid) →
      ((TRS.new rules).run ops).Inv) :=
  ⟨fun _ hr => new_inv fun r hm => (hr r hm).rhs_ne_nil, fun _ op h hv => apply_inv h op hv,
    fun _ ops hr hv => run_inv ops (new_inv fun r hm => (hr r hm).rhs_ne_nil) hv⟩

theorem inv_reachable_move_example :
    ((TRS.new [⟨.application ⟨1⟩ [], [.application ⟨2⟩ []]⟩,
      ⟨.application ⟨3⟩ [], [.application ⟨4⟩ []]⟩]).run
      [.moveRule 0 1, .insertClauses ⟨.application ⟨1⟩ [], [.application ⟨3⟩ []]⟩,
        .makeDeterministic]).Inv :=
  inv_reachable.2.2 _ _ (by decide) (by decide)

end TermRewriting.TRS
