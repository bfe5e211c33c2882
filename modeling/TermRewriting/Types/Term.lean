import TermRewriting.Types.Atom

/-! First-order terms (`types/term.rs`). The term module is not among the sources: the
operations here are modelled from the spec, and the rewriting engine of `types/trs.rs` is
built on them. -/
namespace TermRewriting

/-- A variable, or an operator applied to an ordered argument list. -/
inductive Term where
  | variable (v : Variable)
  | application (op : Operator) (args : List Term)
  deriving Repr

/-- Modelled from the spec: a substitution, the `HashMap<Variable, Term>` as an association
list read by `List.lookup`. -/
abbrev Subst := List (Variable × Term)

namespace Term

mutual
/-- Structural equality; `deriving` does not reach through the argument list. -/
def decEq : (s t : Term) → Decidable (s = t)
  | .variable v, .variable w =>
    if h : v = w then isTrue (h ▸ rfl) else isFalse fun e => h (Term.variable.inj e)
  | .application f as, .application g bs =>
    if hf : f = g then
      match decEqList as bs with
      | isTrue h => isTrue (hf ▸ h ▸ rfl)
      | isFalse h => isFalse fun e => h (Term.application.inj e).2
    else isFalse fun e => hf (Term.application.inj e).1
  | .variable _, .application _ _ => isFalse fun e => Term.noConfusion e
  | .application _ _, .variable _ => isFalse fun e => Term.noConfusion e
def decEqList : (as bs : List Term) → Decidable (as = bs)
  | [], [] => isTrue rfl
  | a :: as, b :: bs =>
    match decEq a b, decEqList as bs with
    | isTrue h, isTrue h' => isTrue (h ▸ h' ▸ rfl)
    | isFalse h, _ => isFalse fun e => h (List.cons.inj e).1
    | _, isFalse h' => isFalse fun e => h' (List.cons.inj e).2
  | [], _ :: _ => isFalse fun e => List.noConfusion e
  | _ :: _, [] => isFalse fun e => List.noConfusion e
end

instance : DecidableEq Term := decEq

/-- Induction with a hypothesis for every argument of an application. -/
theorem induction {P : Term → Prop} (hvar : ∀ v, P (.variable v))
    (happ : ∀ op args, (∀ a ∈ args, P a) → P (.application op args)) : ∀ t, P t := by
  intro t
  refine @Term.rec P (fun ts => ∀ a ∈ ts, P a) hvar happ (fun _ h => nomatch h) ?_ t
  intro a as ha has b hb
  rcases List.mem_cons.mp hb with rfl | hb
  · exact ha
  · exact has b hb

mutual
/-- The number of nodes. -/
def size : Term → Nat
  | .variable _ => 1
  | .application _ args => sizeList args + 1
def sizeList : List Term → Nat
  | [] => 0
  | t :: ts => size t + sizeList ts
end

@[simp] theorem sizeList_nil : sizeList [] = 0 := rfl
@[simp] theorem sizeList_cons (t : Term) (ts : List Term) :
    sizeList (t :: ts) = t.size + sizeList ts := rfl

theorem size_pos (t : Term) : 0 < t.size := by
  cases t <;> simp [size]

mutual
/-- Every application has exactly as many arguments as its operator's arity. -/
def wellFormed (sig : Signature) : Term → Bool
  | .variable _ => true
  | .application op args => args.length == op.arity sig && wellFormedList sig args
def wellFormedList (sig : Signature) : List Term → Bool
  | [] => true
  | t :: ts => wellFormed sig t && wellFormedList sig ts
end

@[simp] theorem wellFormedList_eq_all (sig : Signature) (ts : List Term) :
    wellFormedList sig ts = ts.all (wellFormed sig) := by
  induction ts with
  | nil => rfl
  | cons t ts ih => simp [wellFormedList, ih]

@[simp] theorem wellFormed_variable (sig : Signature) (v : Variable) :
    (Term.variable v).wellFormed sig = true := rfl

@[simp] theorem wellFormed_application (sig : Signature) (op : Operator) (args : List Term) :
    (Term.application op args).wellFormed sig =
      (args.length == op.arity sig && args.all (wellFormed sig)) := by
  simp [wellFormed]

/-- A term's well-formedness reads only the arities of its operators. -/
theorem wellFormed_congr {sig sig' : Signature} (h : ∀ o : Operator, o.arity sig' = o.arity sig) :
    ∀ t : Term, t.wellFormed sig' = t.wellFormed sig :=
  Term.induction (fun _ => rfl) fun op args ih => by
    have hall : args.all (Term.wellFormed sig') = args.all (Term.wellFormed sig) :=
      Bool.eq_iff_iff.mpr (by
        simp only [List.all_eq_true]
        exact forall₂_congr fun a ha => by rw [ih a ha])
    simp only [Term.wellFormed_application, h op, hall]

mutual
/-- The variables in order of occurrence, repetitions kept. -/
def vars : Term → List Variable
  | .variable v => [v]
  | .application _ args => varsList args
def varsList : List Term → List Variable
  | [] => []
  | t :: ts => vars t ++ varsList ts
end

@[simp] theorem varsList_eq_flatMap (ts : List Term) : varsList ts = ts.flatMap vars := by
  induction ts with
  | nil => rfl
  | cons t ts ih => simp [varsList, ih]

@[simp] theorem vars_variable (v : Variable) : (Term.variable v).vars = [v] := rfl

@[simp] theorem vars_application (op : Operator) (args : List Term) :
    (Term.application op args).vars = args.flatMap vars := by
  simp [vars]

mutual
/-- Modelled from the spec: `Term::substitute` replaces each variable with its image and
leaves unmapped variables unchanged. -/
def substitute (σ : Subst) : Term → Term
  | .variable v => (σ.lookup v).getD (.variable v)
  | .application op args => .application op (substituteList σ args)
def substituteList (σ : Subst) : List Term → List Term
  | [] => []
  | t :: ts => substitute σ t :: substituteList σ ts
end

@[simp] theorem substituteList_eq_map (σ : Subst) (ts : List Term) :
    substituteList σ ts = ts.map (substitute σ) := by
  induction ts with
  | nil => rfl
  | cons t ts ih => simp [substituteList, ih]

@[simp] theorem substitute_variable (σ : Subst) (v : Variable) :
    (Term.variable v).substitute σ = (σ.lookup v).getD (.variable v) := rfl

@[simp] theorem substitute_application (σ : Subst) (op : Operator) (args : List Term) :
    (Term.application op args).substitute σ = .application op (args.map (substitute σ)) := by
  simp [substitute]

/-- Modelled from the spec: `Term::replace`, the term with the subterm at `path` replaced;
`none` when the path leaves the term. -/
def replace : Term → List Nat → Term → Option Term
  | _, [], u => some u
  | .variable _, _ :: _, _ => none
  | .application op args, i :: path, u =>
    match args[i]? with
    | some a => (a.replace path u).map fun a' => .application op (args.set i a')
    | none => none

theorem replace_singleton (op : Operator) (args : List Term) (i : Nat) (u : Term) :
    (Term.application op args).replace [i] u =
      if i < args.length then some (.application op (args.set i u)) else none := by
  by_cases hi : i < args.length
  · simp [replace, hi, List.getElem?_eq_getElem hi]
  · simp [replace, hi, List.getElem?_eq_none (Nat.le_of_not_lt hi)]

/-! ### Well-formedness under substitution -/

theorem wellFormed_lookup {sig : Signature} {σ : Subst}
    (hσ : ∀ b ∈ σ, b.2.wellFormed sig) {v : Variable} {u : Term} (h : σ.lookup v = some u) :
    u.wellFormed sig := by
  obtain ⟨l₁, l₂, rfl, -⟩ := List.lookup_eq_some_iff.mp h
  exact hσ (v, u) (by simp)

theorem wellFormed_substitute {sig : Signature} {σ : Subst}
    (hσ : ∀ b ∈ σ, b.2.wellFormed sig) : ∀ t : Term, t.wellFormed sig →
      (t.substitute σ).wellFormed sig := by
  refine induction (fun v _ => ?_) (fun op args ih ht => ?_)
  · cases h : σ.lookup v with
    | none => simp [h]
    | some u => simpa [h] using wellFormed_lookup hσ h
  · simp only [wellFormed_application, Bool.and_eq_true, beq_iff_eq, List.all_eq_true] at ht
    simp only [substitute_application, wellFormed_application, List.length_map, ht.1,
      beq_self_eq_true, List.all_map, Bool.true_and, List.all_eq_true, Function.comp_apply]
    exact fun a ha => ih a ha (ht.2 a ha)

end Term

end TermRewriting
