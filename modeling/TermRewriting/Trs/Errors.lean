import TermRewriting.Trs.Invariant

/-! What a mutation leaves behind when it returns `Err`. The primitive calls check before they
write, so an `Err` of theirs leaves the TRS as it was; `move_rule` and `replace` write first
and then call `insert`, and an `Err` of that `insert` keeps the first write. -/
namespace TermRewriting.TRS

variable {trs t : TRS} {e : TRSError}

theorem insertIdx_error {idx : Nat} {rule : Rule} (h : trs.insertIdx idx rule = (.error e, t)) :
    t = trs := by
  unfold insertIdx at h
  split_ifs at h <;> cases h <;> rfl

theorem insertClauses_error {rule : Rule} (h : trs.insertClauses rule = (.error e, t)) :
    t = trs := by
  unfold insertClauses at h
  split_ifs at h
  · cases h; rfl
  · split at h <;> cases h; rfl

theorem insert_error {idx : Nat} {rule : Rule} (h : trs.insert idx rule = (.error e, t)) :
    t = trs := by
  unfold insert at h
  split at h
  · rename_i hc
    exact (insertIdx_error h).trans (insertClauses_error hc)
  · cases h

theorem removeIdx_error {idx : Nat} (h : trs.removeIdx idx = (.error e, t)) : t = trs := by
  unfold removeIdx at h
  split at h <;> cases h; rfl

theorem remove_error {lhs : Term} (h : trs.remove lhs = (.error e, t)) : t = trs := by
  unfold remove at h
  split at h <;> cases h; rfl

theorem removeClauses_error {rule : Rule} (hv : rule.Valid)
    (h : trs.removeClauses rule = (.error e, t)) : t = trs := by
  unfold removeClauses at h
  split at h
  · cases h
  · rename_i rules hd
    cases h
    have hr : rules = trs.rules := by simpa [hd] using discardFirst_none hv trs.rules (by rw [hd])
    rw [hr]

/-- An `Err` of `move_rule(i, j)` leaves either the TRS it started from (`remove_idx(i)`
failed) or that TRS without its rule `i` (the `insert(j, _)` after it failed). -/
theorem moveRule_error {i j : Nat} (h : trs.moveRule i j = (.error e, t)) :
    t = trs ∨ (i < trs.rules.length ∧ t = { trs with rules := trs.rules.eraseIdx i }) := by
  unfold moveRule at h
  split_ifs at h
  · split at h
    · rename_i rule trs' hr
      unfold removeIdx at hr
      split at hr
      · rename_i hi
        cases hr
        exact .inr ⟨(List.getElem?_eq_some_iff.mp hi).1, insert_error h⟩
      · cases hr
    · rename_i hr
      cases h
      exact .inl (removeIdx_error hr)
  · cases h

/-- An `Err` of `replace(idx, rule1, rule2)` leaves either the TRS it started from
(`remove_clauses(rule1)` failed) or the TRS an `Ok` of `remove_clauses(rule1)` left. -/
theorem replace_error {idx : Nat} {rule1 rule2 : Rule} (hv : rule1.Valid)
    (h : trs.replace idx rule1 rule2 = (.error e, t)) :
    t = trs ∨ ∃ d trs', trs.removeClauses rule1 = (.ok d, trs') ∧ t = trs' := by
  unfold replace at h
  split at h
  · rename_i d trs' hr
    exact .inr ⟨d, trs', hr, insert_error h⟩
  · rename_i hr
    cases h
    exact .inl (removeClauses_error hv hr)

end TermRewriting.TRS
