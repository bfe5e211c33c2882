import TermRewriting.Trs.Push
import Mathlib.Data.List.OfFn

/-! Round trips of the index API of `TRS` (`types/trs.rs`). `remove_idx` undoes a successful
`insert_idx` at the same index, and on a TRS with the invariants `insert_idx` undoes
`remove_idx`. The rule `insert_idx` accepts is the one `get` then finds for its LHS, at its
index; on a TRS with the invariants, after `remove` `get` finds nothing for that LHS. `get`
itself finds the first rule whose LHS is a variant of the term it is given. -/
namespace TermRewriting.TRS

/-- What a successful `insert_idx` checked and did. -/
theorem insertIdx_eq_ok {trs trs' : TRS} {idx : Nat} {rule : Rule}
    (h : trs.insertIdx idx rule = (.ok (), trs')) :
    idx ≤ trs.rules.length ∧ trs.get rule.lhs = none ∧
      trs' = { trs with rules := trs.rules.insertIdx idx rule } := by
  unfold insertIdx at h
  split_ifs at h with hd hlen hget <;> cases h
  exact ⟨by omega, Option.not_isSome_iff_eq_none.mp hget, rfl⟩

/-- `remove_idx` undoes a successful `insert_idx` at the same index: it returns the rule and
leaves the TRS as it was. -/
theorem insertIdx_removeIdx {trs trs' : TRS} {idx : Nat} {rule : Rule}
    (h : trs.insertIdx idx rule = (.ok (), trs')) : trs'.removeIdx idx = (.ok rule, trs) := by
  obtain ⟨hidx, -, rfl⟩ := insertIdx_eq_ok h
  have hlt : idx < (trs.rules.insertIdx idx rule).length := by
    rw [List.length_insertIdx _ _ hidx]
    omega
  rw [removeIdx, List.getElem?_eq_getElem hlt, List.getElem_insertIdx_self _ _ _ hidx,
    List.eraseIdx_insertIdx]

/-- `G = A`, whose LHS no rule of `exampleRules` has. -/
def freshRule : Rule := ⟨.application ⟨5⟩ [], [.application ⟨1⟩ []]⟩

theorem insertIdx_removeIdx_example :
    (TRS.mk false exampleRules).insertIdx 1 freshRule =
        (.ok (), TRS.mk false (exampleRules.insertIdx 1 freshRule)) ∧
      (TRS.mk false (exampleRules.insertIdx 1 freshRule)).removeIdx 1 =
        (.ok freshRule, TRS.mk false exampleRules) :=
  have h : (TRS.mk false exampleRules).insertIdx 1 freshRule =
      (.ok (), TRS.mk false (exampleRules.insertIdx 1 freshRule)) := by decide
  ⟨h, insertIdx_removeIdx h⟩

/-- On a TRS with the invariants, `insert_idx` puts back what `remove_idx` took out, at the same
index: no rule left has an α-equivalent LHS, and in a deterministic TRS the rule has one
clause. -/
theorem removeIdx_insertIdx {trs trs' : TRS} (h : trs.Inv) {idx : Nat} {rule : Rule}
    (hr : trs.removeIdx idx = (.ok rule, trs')) : trs'.insertIdx idx rule = (.ok (), trs) := by
  unfold removeIdx at hr
  split at hr
  · rename_i r hi
    cases hr
    have hlen : (trs.rules.eraseIdx idx).length = trs.rules.length - 1 :=
      List.length_eraseIdx_of_lt (List.getElem?_eq_some_iff.mp hi).1
    have hd : ¬(trs.isDeterministic = true ∧ rule.len > 1) := fun ⟨hdet, hl⟩ => by
      have := h.deterministic hdet rule (List.getElem?_mem hi)
      simp only [Rule.len] at hl
      omega
    have hidx := (List.getElem?_eq_some_iff.mp hi).1
    simp only [insertIdx, if_neg hd, get_eraseIdx h hi, Option.isSome_none, Bool.false_eq_true,
      if_false, insertIdx_eraseIdx_of_getElem? hi]
    rw [if_neg (by omega)]
  · cases hr

theorem removeIdx_insertIdx_example :
    (TRS.new exampleRules).Inv ∧
      (TRS.new exampleRules).removeIdx 0 =
        (.ok (exampleRules.getD 0 freshRule), TRS.mk false (exampleRules.eraseIdx 0)) ∧
      (TRS.mk false (exampleRules.eraseIdx 0)).insertIdx 0 (exampleRules.getD 0 freshRule) =
        (.ok (), TRS.new exampleRules) :=
  have h : (TRS.new exampleRules).Inv := new_inv (by decide)
  have hr : (TRS.new exampleRules).removeIdx 0 =
      (.ok (exampleRules.getD 0 freshRule), TRS.mk false (exampleRules.eraseIdx 0)) := by decide
  ⟨h, hr, removeIdx_insertIdx h hr⟩

/-- The rule a successful `insert_idx` puts in is the one `get` then finds for its LHS, at the
index it was put at. -/
theorem get_insertIdx {trs trs' : TRS} {idx : Nat} {rule : Rule}
    (h : trs.insertIdx idx rule = (.ok (), trs')) : trs'.get rule.lhs = some (idx, rule) := by
  obtain ⟨hidx, hg, rfl⟩ := insertIdx_eq_ok h
  have hlen := List.length_insertIdx (a := rule) idx trs.rules hidx
  unfold get
  rw [List.find?_eq_some_iff_getElem]
  refine ⟨Term.alpha_isSome_self _, idx, by simp [hlen]; omega, ?_, fun j hj => ?_⟩
  · rw [List.getElem_enum, List.getElem_insertIdx_self _ _ _ hidx]
  · rw [List.getElem_enum, List.getElem_insertIdx_of_lt _ _ _ _ hj (by omega)]
    simp [get_eq_none.mp hg _ (List.getElem_mem _)]

theorem get_insertIdx_example :
    (TRS.mk false exampleRules).insertIdx 2 freshRule =
        (.ok (), TRS.mk false (exampleRules ++ [freshRule])) ∧
      (TRS.mk false (exampleRules ++ [freshRule])).get freshRule.lhs = some (2, freshRule) :=
  have h : (TRS.mk false exampleRules).insertIdx 2 freshRule =
      (.ok (), TRS.mk false (exampleRules ++ [freshRule])) := by decide
  ⟨h, get_insertIdx h⟩

/-- On a TRS with the invariants, after `remove` no rule is left whose LHS is α-equivalent to
the one removed: the rule `get` found was the only one. -/
theorem get_remove {trs trs' : TRS} (h : trs.Inv) {lhs : Term} {rule : Rule}
    (hr : trs.remove lhs = (.ok rule, trs')) : trs'.get lhs = none := by
  unfold remove at hr
  split at hr
  · rename_i k R hg
    cases hr
    refine get_eq_none.mpr fun r hr => ?_
    have hR := get_eq_none.mp (get_eraseIdx h (get_eq_some hg)) r hr
    rw [← Option.not_isSome_iff_eq_none, Term.alpha_isSome_comm,
      Term.alpha_isSome_congr (get_alpha hg), Term.alpha_isSome_comm, hR]
    simp
  · cases hr

theorem get_remove_example :
    (TRS.new exampleRules).Inv ∧
      (TRS.new exampleRules).remove (.application ⟨3⟩ []) =
        (.ok (exampleRules.getD 1 freshRule), TRS.mk false (exampleRules.eraseIdx 1)) ∧
      (TRS.mk false (exampleRules.eraseIdx 1)).get (.application ⟨3⟩ []) = none :=
  have h : (TRS.new exampleRules).Inv := new_inv (by decide)
  have hr : (TRS.new exampleRules).remove (.application ⟨3⟩ []) =
      (.ok (exampleRules.getD 1 freshRule), TRS.mk false (exampleRules.eraseIdx 1)) := by decide
  ⟨h, hr, get_remove h hr⟩

/-- `get` finds the first rule whose LHS is a variant of `lhs`, `lhs` with its variables
renamed injectively, with its index. -/
theorem get_eq_some_iff {trs : TRS} {lhs : Term} {k : Nat} {R : Rule} :
    trs.get lhs = some (k, R) ↔ trs.rules[k]? = some R ∧ lhs.IsVariant R.lhs ∧
      ∀ j < k, ∀ R', trs.rules[j]? = some R' → ¬ lhs.IsVariant R'.lhs := by
  simp only [get, List.find?_eq_some_iff_getElem, List.getElem_enum, List.enum_length,
    Prod.mk.injEq, ← Term.alpha_isSome_iff]
  constructor
  · rintro ⟨ha, i, hi, ⟨rfl, hR⟩, hj⟩
    refine ⟨by rw [List.getElem?_eq_getElem hi, hR], ha, fun j hji R' hR' => ?_⟩
    obtain ⟨hjl, rfl⟩ := List.getElem?_eq_some_iff.mp hR'
    simpa using hj j hji
  · rintro ⟨hR, ha, hj⟩
    obtain ⟨hk, rfl⟩ := List.getElem?_eq_some_iff.mp hR
    refine ⟨ha, k, by simpa using hk, ⟨rfl, rfl⟩, fun j hjk => ?_⟩
    simpa using hj j hjk _ (List.getElem?_eq_getElem (by omega))

end TermRewriting.TRS
