import TermRewriting.Types.Rule
import Mathlib.Data.List.InsertIdx

/-! The rule list of a term rewriting system and its mutations (`types/trs.rs`). A mutation
takes `&mut self` and returns a `Result`; the model returns the result with the state the
call leaves, which after an `Err` need not be the state the call started from. -/
namespace TermRewriting

/-- A first-order term rewriting system. -/
structure TRS where
  isDeterministic : Bool
  rules : List Rule
  deriving DecidableEq, Repr

/-- The error type for `TRS` manipulations. -/
inductive TRSError where
  | notInTRS
  | alreadyInTRS
  | nondeterministicRule
  | invalidIndex (idx len : Nat)
  deriving DecidableEq, Repr

/-- Equality of results, so that the mutations' results can be compared by evaluation. -/
instance instDecidableEqExcept {ε α : Type _} [DecidableEq ε] [DecidableEq α] :
    DecidableEq (Except ε α)
  | .error a, .error b => decidable_of_iff (a = b) ⟨fun h => h ▸ rfl, fun h => by injection h⟩
  | .ok a, .ok b => decidable_of_iff (a = b) ⟨fun h => h ▸ rfl, fun h => by injection h⟩
  | .error _, .ok _ => isFalse Except.noConfusion
  | .ok _, .error _ => isFalse Except.noConfusion

namespace TRS

/-- `TRS::len`. -/
def len (trs : TRS) : Nat := trs.rules.length

/-- `TRS::get`: the first rule whose LHS is α-equivalent to `lhs`, with its index. -/
def get (trs : TRS) (lhs : Term) : Option (Nat × Rule) :=
  trs.rules.enum.find? fun p => (Term.alpha lhs p.2.lhs).isSome

/-- `TRS::get_idx`. -/
def getIdx (trs : TRS) (idx : Nat) : Option Rule := trs.rules[idx]?

/-- `TRS::remove`: delete the rule `get` finds. -/
def remove (trs : TRS) (lhs : Term) : Except TRSError Rule × TRS :=
  match trs.get lhs with
  | some (idx, rule) => (.ok rule, { trs with rules := trs.rules.eraseIdx idx })
  | none => (.error .notInTRS, trs)

/-- `TRS::remove_idx`. -/
def removeIdx (trs : TRS) (idx : Nat) : Except TRSError Rule × TRS :=
  match trs.rules[idx]? with
  | some rule => (.ok rule, { trs with rules := trs.rules.eraseIdx idx })
  | none => (.error (.invalidIndex idx trs.rules.length), trs)

/-- The `iter_mut().filter_map(|r| r.discard(rule)).next()` of `remove_clauses`: discard from
each rule in turn, stopping at the first that returns a discarded rule. -/
def discardFirst (rule : Rule) : List Rule → Option Rule × List Rule
  | [] => (none, [])
  | r :: rs =>
    match r.discard rule with
    | (some d, r') => (some d, r' :: rs)
    | (none, r') => ((discardFirst rule rs).1, r' :: (discardFirst rule rs).2)

/-- `TRS::remove_clauses`: discard clauses from the first rule that has them, then drop the
rules left empty. -/
def removeClauses (trs : TRS) (rule : Rule) : Except TRSError Rule × TRS :=
  match discardFirst rule trs.rules with
  | (some discarded, rules) => (.ok discarded, { trs with rules := rules.filter (!·.isEmpty) })
  | (none, rules) => (.error .notInTRS, { trs with rules := rules })

/-- `TRS::insert_idx`. -/
def insertIdx (trs : TRS) (idx : Nat) (rule : Rule) : Except TRSError Unit × TRS :=
  if trs.isDeterministic ∧ rule.len > 1 then (.error .nondeterministicRule, trs)
  else if idx > trs.rules.length then (.error (.invalidIndex idx trs.rules.length), trs)
  else if (trs.get rule.lhs).isSome then (.error .alreadyInTRS, trs)
  else (.ok (), { trs with rules := trs.rules.insertIdx idx rule })

/-- The loop of `TRS::inserts_idx`, over the rules already reversed. -/
def insertsIdxLoop (idx : Nat) : List Rule → TRS → Except TRSError Unit × TRS
  | [], trs => (.ok (), trs)
  | rule :: rules, trs =>
    match trs.insertIdx idx rule with
    | (.ok (), trs) => insertsIdxLoop idx rules trs
    | (.error e, trs) => (.error e, trs)

/-- `TRS::inserts_idx`: `insert_idx` each rule, last first, stopping at the first error. -/
def insertsIdx (trs : TRS) (idx : Nat) (rules : List Rule) : Except TRSError Unit × TRS :=
  insertsIdxLoop idx rules.reverse trs

/-- `TRS::insert_clauses`: merge into the rule whose LHS is α-equivalent. -/
def insertClauses (trs : TRS) (rule : Rule) : Except TRSError Unit × TRS :=
  if trs.isDeterministic then (.error .nondeterministicRule, trs)
  else
    match trs.get rule.lhs with
    | some (idx, _) => (.ok (), { trs with rules := trs.rules.modify (·.merge rule) idx })
    | none => (.error .notInTRS, trs)

/-- `TRS::insert`: merge if possible, else insert at `idx`. -/
def insert (trs : TRS) (idx : Nat) (rule : Rule) : Except TRSError Unit × TRS :=
  match trs.insertClauses rule with
  | (.error _, trs) => trs.insertIdx idx rule
  | (.ok (), trs) => (.ok (), trs)

/-- `TRS::move_rule`: `remove_idx(i)`, then `insert(j, _)`. -/
def moveRule (trs : TRS) (i j : Nat) : Except TRSError Unit × TRS :=
  if i ≠ j then
    match trs.removeIdx i with
    | (.ok rule, trs) => trs.insert j rule
    | (.error e, trs) => (.error e, trs)
  else (.ok (), trs)

/-- `move_rule(0, 2)` on `A = B; C = D`: `remove_idx(0)` succeeds, `insert(2, _)` fails with
`InvalidIndex(2, 1)`, and `A = B` is gone. -/
theorem moveRule_err_drops_rule :
    (TRS.mk false [⟨.application ⟨1⟩ [], [.application ⟨2⟩ []]⟩,
      ⟨.application ⟨3⟩ [], [.application ⟨4⟩ []]⟩]).moveRule 0 2 =
      (.error (.invalidIndex 2 1), ⟨false, [⟨.application ⟨3⟩ [], [.application ⟨4⟩ []]⟩]⟩) := by
  decide

/-- `TRS::push`: `insert(0, _)`, then move the rule with that LHS to the front. -/
def push (trs : TRS) (rule : Rule) : Except TRSError Unit × TRS :=
  match trs.insert 0 rule with
  | (.ok (), trs) =>
    match trs.get rule.lhs with
    | some (idx, _) => trs.moveRule idx 0
    | none => (.error .notInTRS, trs)
  | (.error e, trs) => (.error e, trs)

/-- The loop of `TRS::pushes`, over the rules already reversed. -/
def pushesLoop : List Rule → TRS → Except TRSError Unit × TRS
  | [], trs => (.ok (), trs)
  | rule :: rules, trs =>
    match trs.push rule with
    | (.ok (), trs) => pushesLoop rules trs
    | (.error e, trs) => (.error e, trs)

/-- `TRS::pushes`: `push` each rule, last first, stopping at the first error. -/
def pushes (trs : TRS) (rules : List Rule) : Except TRSError Unit × TRS :=
  pushesLoop rules.reverse trs

/-- `TRS::replace`: `remove_clauses(rule1)`, then `insert(idx, rule2)`. -/
def replace (trs : TRS) (idx : Nat) (rule1 rule2 : Rule) : Except TRSError Unit × TRS :=
  match trs.removeClauses rule1 with
  | (.ok _, trs) => trs.insert idx rule2
  | (.error e, trs) => (.error e, trs)

/-- `TRS::new`: `pushes` into an empty nondeterministic TRS, ignoring the result. -/
def new (rules : List Rule) : TRS :=
  (TRS.mk false []).pushes rules |>.2

/-- `TRS::make_deterministic`: keep each rule's first clause; `true` if the TRS changed. -/
def makeDeterministic (trs : TRS) : Bool × TRS :=
  if !trs.isDeterministic then
    (true, { isDeterministic := true, rules := trs.rules.map fun r => { r with rhs := r.rhs.take 1 } })
  else (false, trs)

/-- `TRS::make_nondeterministic`: clear the flag; its previous value is returned. -/
def makeNondeterministic (trs : TRS) : Bool × TRS :=
  (trs.isDeterministic, { trs with isDeterministic := false })

/-- The mutating calls of the `TRS` API, with their arguments. -/
inductive Op where
  | push (rule : Rule)
  | pushes (rules : List Rule)
  | insert (idx : Nat) (rule : Rule)
  | insertIdx (idx : Nat) (rule : Rule)
  | insertsIdx (idx : Nat) (rules : List Rule)
  | insertClauses (rule : Rule)
  | remove (lhs : Term)
  | removeIdx (idx : Nat)
  | removeClauses (rule : Rule)
  | replace (idx : Nat) (rule1 rule2 : Rule)
  | moveRule (i j : Nat)
  | makeDeterministic
  | makeNondeterministic
  deriving DecidableEq, Repr

/-- The rules a call takes as arguments. -/
def Op.ruleArgs : Op → List Rule
  | .push rule | .insert _ rule | .insertIdx _ rule | .insertClauses rule
  | .removeClauses rule => [rule]
  | .pushes rules | .insertsIdx _ rules => rules
  | .replace _ rule1 rule2 => [rule1, rule2]
  | .remove _ | .removeIdx _ | .moveRule _ _ | .makeDeterministic | .makeNondeterministic => []

/-- Every rule argument of the call satisfies the rule invariants. -/
def Op.Valid (op : Op) : Prop := ∀ r ∈ op.ruleArgs, r.Valid

instance (op : Op) : Decidable op.Valid := inferInstanceAs (Decidable (∀ r ∈ op.ruleArgs, r.Valid))

/-- The state a call leaves, whether it returns `Ok` or `Err`. -/
def apply (trs : TRS) : Op → TRS
  | .push rule => (trs.push rule).2
  | .pushes rules => (trs.pushes rules).2
  | .insert idx rule => (trs.insert idx rule).2
  | .insertIdx idx rule => (trs.insertIdx idx rule).2
  | .insertsIdx idx rules => (trs.insertsIdx idx rules).2
  | .insertClauses rule => (trs.insertClauses rule).2
  | .remove lhs => (trs.remove lhs).2
  | .removeIdx idx => (trs.removeIdx idx).2
  | .removeClauses rule => (trs.removeClauses rule).2
  | .replace idx rule1 rule2 => (trs.replace idx rule1 rule2).2
  | .moveRule i j => (trs.moveRule i j).2
  | .makeDeterministic => trs.makeDeterministic.2
  | .makeNondeterministic => trs.makeNondeterministic.2

/-- The state after a sequence of calls. -/
def run (trs : TRS) (ops : List Op) : TRS := ops.foldl apply trs

end TRS

end TermRewriting
