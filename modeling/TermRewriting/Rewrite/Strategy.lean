import TermRewriting.Types.Trs
import Mathlib

/-! The rewrite strategies over trees (`types/trs.rs`): `rewrite_head`, the stack search of
`Normal` with its re-embedding fold, `rewrite_args` for `Eager` and `rewrite_all`. -/
namespace TermRewriting

/-- The strategies of `TRS::rewrite`. -/
inductive Strategy where
  | normal
  | eager
  | all
  | string
  deriving DecidableEq, Repr

/-- A frame `(op, arg, args)` of the search stack of `Normal::new`. -/
structure Frame where
  op : Operator
  arg : Nat
  args : List Term
  deriving DecidableEq, Repr

/-- Where the search of `Normal::new` stopped: no redex, a redex at the head, or a redex
below the saved stack. -/
inductive NormalKind where
  | none
  | head (it : List Term)
  | subterm (stack : List Frame) (it : List Term)
  deriving DecidableEq, Repr

namespace Frame

/-- The size of the arguments the frame has still to search. -/
def weight (fr : Frame) : Nat := Term.sizeList (fr.args.drop fr.arg)

theorem weight_eq {fr : Frame} {t : Term} (h : fr.args[fr.arg]? = some t) :
    fr.weight = t.size + Term.sizeList (fr.args.drop (fr.arg + 1)) := by
  obtain ⟨hlt, ht⟩ := List.getElem?_eq_some_iff.mp h
  unfold weight
  rw [List.drop_eq_getElem_cons hlt, ht, Term.sizeList_cons]

/-- The step of `Normal::next`'s fold for one frame: `args[..arg]`, the subterm, then
`args[arg + 1..]`; the slices panic unless `arg < args.len()`. -/
def embed (fr : Frame) (subterm : Term) : Option Term :=
  if fr.arg < fr.args.length then
    some (.application fr.op (fr.args.take fr.arg ++ subterm :: fr.args.drop (fr.arg + 1)))
  else none

end Frame

namespace TRS

/-- `TRS::rewrite_head`: the instantiated clauses of the first rule that matches `term` and
has clauses. -/
def rewriteHead (trs : TRS) (term : Term) : Option (List Term) :=
  trs.rules.findSome? fun rule =>
    match Term.pmatch rule.lhs term with
    | some sub => if (rule.rhs.map (·.substitute sub)).isEmpty then none
        else some (rule.rhs.map (·.substitute sub))
    | none => none

/-- The rule loop of `Normal::new`: the rewrites of the first rule whose `rewrite` yields. -/
def firstRewrites (trs : TRS) (term : Term) : Option (List Term) :=
  trs.rules.findSome? fun rule =>
    if (rule.rewrite term).isEmpty then none else some (rule.rewrite term)

theorem firstRewrites_eq_rewriteHead (trs : TRS) (term : Term) :
    trs.firstRewrites term = trs.rewriteHead term := by
  unfold firstRewrites rewriteHead Rule.rewrite
  congr
  funext rule
  rcases Term.pmatch rule.lhs term with _ | σ <;> simp

/-- The loop of `Normal::new`: pop a frame, try the rules on `args[arg]` and, failing that,
push the next sibling and then the first argument of `args[arg]`. A variable argument ends its
frame. `none` is the panic of `args[arg]` past the end of the list. -/
def search (trs : TRS) : List Frame → Option NormalKind
  | [] => some .none
  | fr :: stack =>
    match _h : fr.args[fr.arg]? with
    | none => none
    | some (.variable _) => search trs stack
    | some (.application newOp newArgs) =>
      match trs.firstRewrites (.application newOp newArgs) with
      | some it => some (.subterm (fr :: stack) it)
      | none =>
        let stack := if fr.arg + 1 < fr.args.length then { fr with arg := fr.arg + 1 } :: stack
          else stack
        search trs (if newArgs.isEmpty then stack else ⟨newOp, 0, newArgs⟩ :: stack)
termination_by stack => (stack.map Frame.weight).sum
decreasing_by
  all_goals simp_wf
  · rw [Frame.weight_eq _h]
    exact Nat.add_pos_left (Term.size_pos _) _
  · have hw := Frame.weight_eq _h
    simp only [Term.size] at hw
    have hd : ({ fr with arg := fr.arg + 1 } : Frame).weight =
        Term.sizeList (fr.args.drop (fr.arg + 1)) := rfl
    have hn : (Frame.mk newOp 0 newArgs).weight = Term.sizeList newArgs := rfl
    split_ifs with h1 <;> (try subst h1) <;>
      simp only [List.map_cons, List.sum_cons, hd, hn, Term.sizeList_nil] at hw ⊢ <;> omega

@[simp] theorem search_nil (trs : TRS) : trs.search [] = some .none := by
  rw [search]

/-- The loop's step with the bound on `arg` left out of the match. -/
theorem search_cons (trs : TRS) (fr : Frame) (stack : List Frame) :
    trs.search (fr :: stack) =
      match fr.args[fr.arg]? with
      | none => none
      | some (.variable _) => trs.search stack
      | some (.application newOp newArgs) =>
        match trs.firstRewrites (.application newOp newArgs) with
        | some it => some (.subterm (fr :: stack) it)
        | none =>
          let stack := if fr.arg + 1 < fr.args.length then { fr with arg := fr.arg + 1 } :: stack
            else stack
          trs.search (if newArgs.isEmpty then stack else ⟨newOp, 0, newArgs⟩ :: stack) := by
  rw [search]
  split <;> (rename_i h; rw [h])

/-- A frame of the stack the search goes on with: the first argument of `args[arg]`, pushed
only if there is one; the next sibling, pushed only if there is one; or a frame below. -/
theorem mem_next_stack {fr f : Frame} {stack : List Frame} {newOp : Operator}
    {newArgs : List Term}
    (hf : f ∈ if newArgs.isEmpty then
        (if fr.arg + 1 < fr.args.length then { fr with arg := fr.arg + 1 } :: stack else stack)
      else ⟨newOp, 0, newArgs⟩ ::
        if fr.arg + 1 < fr.args.length then { fr with arg := fr.arg + 1 } :: stack else stack) :
    (f = ⟨newOp, 0, newArgs⟩ ∧ newArgs ≠ []) ∨
      (f = { fr with arg := fr.arg + 1 } ∧ fr.arg + 1 < fr.args.length) ∨ f ∈ stack := by
  split_ifs at hf <;> simp_all
  tauto

/-- `Normal::new`: the head first, then the stack search from the first argument. -/
def normalNew (trs : TRS) : Term → Option NormalKind
  | .variable _ => some .none
  | .application op args =>
    match trs.firstRewrites (.application op args) with
    | some it => some (.head it)
    | none => trs.search [⟨op, 0, args⟩]

mutual
/-- `TRSRewrites::new` under `Strategy::Eager`: `rewrite_args`, else `rewrite_head`. -/
def rewriteEager (trs : TRS) : Term → List Term
  | .variable v => (trs.rewriteHead (.variable v)).getD []
  | .application op args =>
    ((rewriteArgsFrom trs op [] args).orElse fun _ => trs.rewriteHead (.application op args)).getD []
/-- The loop of `TRS::rewrite_args` from the argument after `done`: the first argument with a
rewrite gives one term per rewrite, the other arguments kept. -/
def rewriteArgsFrom (trs : TRS) (op : Operator) (done : List Term) :
    List Term → Option (List Term)
  | [] => none
  | arg :: rest =>
    match rewriteEager trs arg with
    | [] => rewriteArgsFrom trs op (done ++ [arg]) rest
    | it => some (it.map fun x => .application op (done ++ x :: rest))
end

mutual
/-- `TRS::rewrite_all`: the head rewrites, then those of each argument, put back with
`Term::replace`, arguments left to right. -/
def rewriteAll (trs : TRS) : Term → Option (List Term)
  | .variable _ => none
  | .application op args =>
    some ((trs.rewriteHead (.application op args)).getD [] ++
      rewriteAllArgs trs (.application op args) 0 args)
/-- The argument loop of `rewrite_all` from index `i`. The source unwraps `replace(&[i], _)`,
which `Term.replace_singleton` shows is never `none` here. -/
def rewriteAllArgs (trs : TRS) (term : Term) (i : Nat) : List Term → List Term
  | [] => []
  | arg :: rest =>
    ((rewriteAll trs arg).getD []).map (fun rw => (term.replace [i] rw).getD term) ++
      rewriteAllArgs trs term (i + 1) rest
end

end TRS

/-- The terms `Normal::next` yields: each rewrite folded through the saved stack. -/
def NormalKind.items : NormalKind → Option (List Term)
  | .none => some []
  | .head it => some it
  | .subterm stack it => it.mapM fun subterm => stack.foldlM (fun s fr => fr.embed s) subterm

end TermRewriting
