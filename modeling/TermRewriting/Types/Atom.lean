import Mathlib.Data.List.Basic

/-! Symbols: the signature registry, `Variable`, `Operator` and `Atom` (`types/atom.rs`).
The registry itself (`types/signature.rs`) is not among the sources; it is modelled from the
spec. Handles are indices into the registry, which only grows, so every handle a term holds
indexes a record; the lookups below read a default record only for handles no code builds. -/
namespace TermRewriting

/-- The records behind the reader-writer lock: `(arity, name)` per operator and a name per
variable, each addressed by its index. -/
structure Sig where
  operators : List (Nat × Option String)
  «variables» : List (Option String)
  deriving DecidableEq, Repr

/-- Modelled from the spec: `Signature`, a shared handle on a `Sig`. Two handles are equal
when they share the store, so the model keeps the store itself. -/
structure Signature where
  sig : Sig
  deriving DecidableEq, Repr

/-- A symbol for an unspecified term. -/
structure Variable where
  id : Nat
  deriving DecidableEq, Repr

/-- A symbol with fixed arity. -/
structure Operator where
  id : Nat
  deriving DecidableEq, Repr

/-- `Variable`s and `Operator`s: the parts of a TRS not built from smaller parts. -/
inductive Atom where
  | variable (v : Variable)
  | operator (o : Operator)
  deriving DecidableEq, Repr

namespace Signature

/-- Modelled from the spec: `Signature::new_op` appends an operator record; no deduplication. -/
def newOp (sig : Signature) (arity : Nat) (name : Option String) : Operator × Signature :=
  (⟨sig.sig.operators.length⟩,
    ⟨{ sig.sig with operators := sig.sig.operators ++ [(arity, name)] }⟩)

/-- Modelled from the spec: `Signature::new_var` appends a variable record. -/
def newVar (sig : Signature) (name : Option String) : Variable × Signature :=
  (⟨sig.sig.«variables».length⟩,
    ⟨{ sig.sig with «variables» := sig.sig.«variables» ++ [name] }⟩)

/-- Modelled from the spec: `Signature::operators`, every registered operator in order. -/
def operators (sig : Signature) : List Operator :=
  (List.range sig.sig.operators.length).map Operator.mk

end Signature

namespace Operator

/-- `Operator::arity`: `operators[id].0`. -/
def arity (o : Operator) (sig : Signature) : Nat :=
  (sig.sig.operators.getD o.id (0, none)).1

/-- `Operator::name`: `operators[id].1`. -/
def name (o : Operator) (sig : Signature) : Option String :=
  (sig.sig.operators.getD o.id (0, none)).2

/-- `Operator::display`: the name, else `op` followed by the index. -/
def display (o : Operator) (sig : Signature) : String :=
  match o.name sig with
  | some name => name
  | none => "op" ++ toString o.id

end Operator

namespace Variable

/-- `Variable::name`: `variables[id]`. -/
def name (v : Variable) (sig : Signature) : Option String :=
  sig.sig.«variables».getD v.id none

/-- `Variable::display`: the name, else `var` and the index, then an underscore. -/
def display (v : Variable) (sig : Signature) : String :=
  match v.name sig with
  | some name => name ++ "_"
  | none => "var" ++ toString v.id ++ "_"

end Variable

/-- `Atom::display`. -/
def Atom.display (sig : Signature) : Atom → String
  | .variable v => v.display sig
  | .operator o => o.display sig

end TermRewriting
