import TermRewriting.Rewrite.Strategy

/-! `Strategy::String` (`types/trs.rs`): terms read as strings of atoms joined by a binary
`"."`, rules applied as string patterns over every split of the string, and the results read
back as left-leaning `"."` trees. -/
namespace TermRewriting

/-- `Itertools::combinations`: the `k`-element sublists, in lexicographic order of positions. -/
def combinations {α : Type} : Nat → List α → List (List α)
  | 0, _ => [[]]
  | _ + 1, [] => []
  | k + 1, a :: as => (combinations k as).map (a :: ·) ++ combinations (k + 1) as

/-- The leaf term of an atom, as `convert_to_term` builds it. -/
def Atom.toTerm : Atom → Term
  | .variable v => .variable v
  | .operator op => .application op []

/-- The atoms of `string[start..stop]`. -/
def segment (string : List Atom) (start stop : Nat) : List Atom :=
  (string.drop start).take (stop - start)

namespace TRS

mutual
/-- `TRS::convert_term_to_string`: a variable or a nullary application is one atom, a binary
`"."` application the string of its arguments in order; anything else fails. -/
def convertTermToString (sig : Signature) : Term → Option (List Atom)
  | .variable v => some [.variable v]
  | .application op args =>
    if op.arity sig = 0 then some [.operator op]
    else if op.name sig = some "." ∧ op.arity sig = 2 then convertArgsToString sig args
    else none
/-- The loop of `convert_term_to_string` over the arguments of a `"."` application. -/
def convertArgsToString (sig : Signature) : List Term → Option (List Atom)
  | [] => some []
  | a :: as =>
    match convertTermToString sig a, convertArgsToString sig as with
    | some s, some ss => some (s ++ ss)
    | _, _ => none
end

/-- `TRS::convert_rule_to_strings`. -/
def convertRuleToStrings (sig : Signature) (rule : Rule) : Option (List Atom × List (List Atom)) :=
  match convertTermToString sig rule.lhs, rule.rhs.mapM (convertTermToString sig) with
  | some lhs, some rhs => some (lhs, rhs)
  | _, _ => none

/-- `TRS::valid_option`: every operator of the pattern gets a segment of length one. -/
def validOption (pattern : List Atom) (breaks : List Nat) : Bool :=
  pattern.enum.all fun p =>
    match p.2 with
    | .operator _ => breaks.getD (p.1 + 1) 0 - breaks.getD p.1 0 == 1
    | .variable _ => true

/-- `TRS::gen_breaks`: `0`, then `pattern.len() - 1` strictly increasing points of `0..=n`,
then `n`, kept when `valid_option` accepts them. On an empty pattern, which only an ill-formed
`"."` term gives, the source's `usize` subtraction underflows; the model takes `0` there. -/
def genBreaks (pattern : List Atom) (n : Nat) : Option (List (List Nat)) :=
  some (((combinations (pattern.length - 1) (List.range (n + 1))).map fun x => 0 :: x ++ [n]).filter
    (validOption pattern))

/-- The loop of `TRS::match_pattern` from position `i`: a variable binds its segment on its
first occurrence and must meet the same segment afterwards; an operator must be its segment. -/
def matchPatternFrom (breaks : List Nat) (string : List Atom) :
    Nat → List Atom → List (Variable × List Atom) → Option (List (Variable × List Atom))
  | _, [], bindings => some bindings
  | i, atom :: pattern, bindings =>
    let seg := segment string (breaks.getD i 0) (breaks.getD (i + 1) 0)
    match atom with
    | .variable v =>
      match bindings.lookup v with
      | some m => if m ≠ seg then none else matchPatternFrom breaks string (i + 1) pattern bindings
      | none => matchPatternFrom breaks string (i + 1) pattern ((v, seg) :: bindings)
    | .operator _ =>
      if seg ≠ [atom] then none else matchPatternFrom breaks string (i + 1) pattern bindings

/-- `TRS::match_pattern`. -/
def matchPattern (pattern : List Atom) (breaks : List Nat) (string : List Atom) :
    Option (List (Variable × List Atom)) :=
  matchPatternFrom breaks string 0 pattern []

/-- `TRS::substitute_pattern`: a variable is replaced by its segment, an operator kept; an
unbound variable fails. -/
def substitutePattern : List Atom → List (Variable × List Atom) → Option (List Atom)
  | [], _ => some []
  | .variable v :: pattern, bindings =>
    match bindings.lookup v, substitutePattern pattern bindings with
    | some s, some rest => some (s ++ rest)
    | _, _ => none
  | .operator o :: pattern, bindings => (substitutePattern pattern bindings).map (.operator o :: ·)

/-- The first binary operator named `"."`. -/
def binOp (sig : Signature) : Option Operator :=
  sig.operators.find? fun x => x.arity sig = 2 ∧ x.name sig = some "."

/-- `TRS::convert_to_term`: the atoms as a left-leaning tree under `binOp`; fails on the empty
string and when there is no binary `"."`. -/
def convertToTerm (sig : Signature) : List Atom → Option Term
  | [] => none
  | a :: rest =>
    (binOp sig).map fun bin => rest.foldl (fun term c => .application bin [term, c.toTerm]) a.toTerm

/-- The rewrites of one pattern at one break vector: every clause instantiated by the match. -/
def rewritesAt (sig : Signature) (string : List Atom) (pattern : List Atom × List (List Atom))
    (breaks : List Nat) : Option (List Term) :=
  match matchPattern pattern.1 breaks string with
  | some bindings =>
    pattern.2.mapM fun rhs =>
      match substitutePattern rhs bindings with
      | some newString => convertToTerm sig newString
      | none => none
  | none => some []

/-- `TRS::rewrite_as_string`: for each rule in order, each break vector and each clause; any
failing step (`?`) abandons every rewrite. -/
def rewriteAsString (trs : TRS) (term : Term) (sig : Signature) : Option (List Term) :=
  match convertTermToString sig term with
  | none => none
  | some string =>
    (trs.rules.mapM fun rule =>
      match convertRuleToStrings sig rule with
      | none => none
      | some pattern =>
        match genBreaks pattern.1 string.length with
        | none => none
        | some breaks => (breaks.mapM (rewritesAt sig string pattern)).map List.flatten).map
      List.flatten

end TRS

end TermRewriting
