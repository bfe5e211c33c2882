import TermRewriting.Types.Term
import Mathlib

/-! Lists as strings for `TRS::p_list` (`types/trs.rs`): a Lisp-style cons list of decimal
numerals becomes a string of atoms, one nullary operator per number, found by name in the
signature or created there. The signature is threaded through the conversions, as the source
threads its `&mut Signature`. -/
namespace TermRewriting

/-- Modelled from the spec: `Term::as_guarded_application`, the operator and arguments of an
application whose operator has the given name and arity. -/
def Term.asGuardedApplication (sig : Signature) (name : String) (arity : Nat) :
    Term → Option (Operator × List Term)
  | .application op args => if op.name sig = some name ∧ op.arity sig = arity then some (op, args)
    else none
  | .variable _ => none

namespace Signature

/-- The first nullary operator named `name`: the lookup of `TRS::num_to_atom`. -/
def nullaryNamed (sig : Signature) (name : String) : Option Operator :=
  sig.operators.find? fun op => op.name sig = some name ∧ op.arity sig = 0

theorem find?_congr_of_mem {α : Type} {p q : α → Bool} :
    ∀ {l : List α}, (∀ x ∈ l, p x = q x) → l.find? p = l.find? q
  | [], _ => rfl
  | x :: l, h => by
    simp only [List.find?_cons, h x (List.mem_cons_self x l),
      find?_congr_of_mem fun y hy => h y (List.mem_cons_of_mem x hy)]

section Grows

variable {sig sig' : Signature} (hg : sig.sig.operators <+: sig'.sig.operators)
include hg

/-- A signature that grows another by appending records lists its operators first. -/
theorem operators_prefix : sig.operators <+: sig'.operators := by
  obtain ⟨more, h⟩ := hg
  rw [operators, operators, ← h, List.length_append, List.range_add, List.map_append]
  exact List.prefix_append _ _

/-- On the operators it already had, a grown signature names them as before. -/
theorem find?_operators_of_prefix (name : String) :
    sig.operators.find? (fun op => op.name sig' = some name ∧ op.arity sig' = 0) =
      sig.nullaryNamed name := by
  refine find?_congr_of_mem fun o ho => ?_
  obtain ⟨more, hm⟩ := hg
  obtain ⟨i, hi, rfl⟩ := List.mem_map.mp ho
  simp only [Operator.name, Operator.arity, ← hm, List.getD_append _ _ _ _ (List.mem_range.mp hi)]

/-- The first nullary operator of a name stays the first as the signature grows. -/
theorem nullaryNamed_of_prefix {name : String} {op : Operator}
    (h : sig.nullaryNamed name = some op) : sig'.nullaryNamed name = some op := by
  obtain ⟨rest, hr⟩ := operators_prefix hg
  rw [nullaryNamed, ← hr, List.find?_append, find?_operators_of_prefix hg, h]
  rfl

end Grows

/-- `new_op` makes the first nullary operator of a name that had none. -/
theorem nullaryNamed_newOp {sig : Signature} {name : String} (h : sig.nullaryNamed name = none) :
    (sig.newOp 0 (some name)).2.nullaryNamed name = some (sig.newOp 0 (some name)).1 := by
  have hops : (sig.newOp 0 (some name)).2.operators =
      sig.operators ++ [⟨sig.sig.operators.length⟩] := by
    simp only [newOp, operators, List.length_append, List.length_singleton, List.range_succ,
      List.map_append, List.map_singleton]
  rw [nullaryNamed, hops, List.find?_append, find?_operators_of_prefix (List.prefix_append _ _), h]
  simp [newOp, Operator.name, Operator.arity]

/-- `new_op` of a nullary operator changes no arity: an index past the records reads arity `0`
too. -/
theorem arity_newOp (sig : Signature) (name : Option String) (o : Operator) :
    o.arity (sig.newOp 0 name).2 = o.arity sig := by
  simp only [Operator.arity, Signature.newOp]
  rcases lt_trichotomy o.id sig.sig.operators.length with h | h | h
  · rw [List.getD_append _ _ _ _ h]
  · simp [List.getD_eq_getElem?_getD, h]
  · rw [List.getD_eq_default _ _ (by simp; omega), List.getD_eq_default _ _ h.le]

theorem nullaryNamed_name {sig : Signature} {name : String} {op : Operator}
    (h : sig.nullaryNamed name = some op) : op.name sig = some name ∧ op.arity sig = 0 := by
  simpa using List.find?_some h

end Signature

namespace TRS

/-- `TRS::digit_to_usize`: a nullary operator named by a decimal digit. -/
def digitToUsize (sig : Signature) : Term → Option Nat
  | .variable _ => none
  | .application op _ =>
    match op.name sig, op.arity sig with
    | some "0", 0 => some 0
    | some "1", 0 => some 1
    | some "2", 0 => some 2
    | some "3", 0 => some 3
    | some "4", 0 => some 4
    | some "5", 0 => some 5
    | some "6", 0 => some 6
    | some "7", 0 => some 7
    | some "8", 0 => some 8
    | some "9", 0 => some 9
    | _, _ => none

/-- `TRS::num_to_usize`: `.(DIGIT, d)` is `d`, and `.(.(DECC, k), d)` is `k * 10 + d` in
wrapping `usize`. The `"."` and `DECC` checks are those of `as_guarded_application`; where
the source's indexing panics (`numToUsizePanics`) the model gives `none`. -/
def numToUsize (sig : Signature) : Term → Option Nat
  | .application op (a0 :: a1 :: _) =>
    if op.name sig = some "." ∧ op.arity sig = 2 then
      if (a0.asGuardedApplication sig "DIGIT" 0).isSome then digitToUsize sig a1
      else
        match a0 with
        | .application op₀ (i0 :: i1 :: _) =>
          if op₀.name sig = some "." ∧ op₀.arity sig = 2 ∧
              (i0.asGuardedApplication sig "DECC" 0).isSome then
            (numToUsize sig i1).bind fun sigs =>
              (digitToUsize sig a1).map fun digit => (sigs * 10 + digit) % 2 ^ 64
          else none
        | _ => none
    else none
  | _ => none

/-- Where `TRS::num_to_usize` panics, in every build: it reads `args[0]` and `args[1]` of a `"."`
application, and `inner_args[0]` and `inner_args[1]` of the `"."` application in `args[0]`,
without checking that they exist. `numToUsize` gives `none` there. -/
def numToUsizePanics (sig : Signature) : Term → Bool
  | .application op args =>
    if op.name sig = some "." ∧ op.arity sig = 2 then
      match args with
      | [] => true
      | a0 :: rest =>
        if (a0.asGuardedApplication sig "DIGIT" 0).isSome then rest.isEmpty
        else
          match a0 with
          | .application op₀ inner =>
            if op₀.name sig = some "." ∧ op₀.arity sig = 2 then
              match inner with
              | [] => true
              | i0 :: irest =>
                (i0.asGuardedApplication sig "DECC" 0).isSome &&
                  match irest with
                  | [] => true
                  | i1 :: _ => numToUsizePanics sig i1 || ((numToUsize sig i1).isSome && rest.isEmpty)
            else false
          | .variable _ => false
    else false
  | .variable _ => false

/-- `TRS::num_to_atom`: below `100`, the first nullary operator named by the number's decimal
form, else a new one. -/
def numToAtom (sig : Signature) (term : Term) : Option Atom × Signature :=
  match numToUsize sig term with
  | some n =>
    if n < 100 then
      match sig.operators.find? fun op => op.name sig = some (toString n) ∧ op.arity sig = 0 with
      | some op => (some (.operator op), sig)
      | none =>
        let (op, sig) := sig.newOp 0 (some (toString n))
        (some (.operator op), sig)
    else (none, sig)
  | none => (none, sig)

/-- `TRS::convert_list_to_string`: `NIL` is the empty string and `.(.(CONS, n), rest)` puts
the atom of `n` before the string of `rest`. The signature an early `None` leaves is
returned too: the source's `&mut Signature` keeps the operators made before it. Where the
source's indexing panics (`convertListToStringPanics`) the model gives `none`. -/
def convertListToString (sig : Signature) (term : Term) : Option (List Atom) × Signature :=
  if (term.asGuardedApplication sig "NIL" 0).isSome then (some [], sig)
  else
    match term with
    | .application op (a0 :: a1 :: _) =>
      if op.name sig = some "." ∧ op.arity sig = 2 then
        match a0.asGuardedApplication sig "." 2 with
        | some (_, i0 :: i1 :: _) =>
          if (i0.asGuardedApplication sig "CONS" 0).isSome then
            match numToAtom sig i1 with
            | (some atom, sig) =>
              match convertListToString sig a1 with
              | (some rest, sig) => (some (atom :: rest), sig)
              | (none, sig) => (none, sig)
            | (none, sig) => (none, sig)
          else (none, sig)
        | _ => (none, sig)
      else (none, sig)
    | _ => (none, sig)

/-- The part of `TRS::p_list` before `PString::new`: `x` and then `y` converted on one clone
of the signature; `none` where either fails, and `p_list` returns `-∞`. -/
def pListStrings (sig : Signature) (x y : Term) : Option (List Atom × List Atom × Signature) :=
  match convertListToString sig x with
  | (xs, sig) =>
    match convertListToString sig y, xs with
    | (some ys, sig), some xs => some (xs, ys, sig)
    | _, _ => none

/-! ### Numerals past `usize` -/

/-- The number a numeral denotes, from its digits, least significant first. -/
def numeralValue : List Nat → Nat
  | [] => 0
  | d :: ds => d + 10 * numeralValue ds

/-- A signature with `"."` (operator 0), `DIGIT`, `DECC`, `CONS`, `NIL` (1 to 4) and the
digits `0` to `9` (5 to 14). -/
def listSig : Signature :=
  ⟨⟨[(2, some "."), (0, some "DIGIT"), (0, some "DECC"), (0, some "CONS"), (0, some "NIL"),
    (0, some "0"), (0, some "1"), (0, some "2"), (0, some "3"), (0, some "4"), (0, some "5"),
    (0, some "6"), (0, some "7"), (0, some "8"), (0, some "9")], []⟩⟩

/-- The numeral of its digits, least significant first, over `listSig`. -/
def numeral : List Nat → Term
  | [] => .application ⟨0⟩ [.application ⟨1⟩ [], .application ⟨5⟩ []]
  | [d] => .application ⟨0⟩ [.application ⟨1⟩ [], .application ⟨5 + d⟩ []]
  | d :: ds => .application ⟨0⟩ [.application ⟨0⟩ [.application ⟨2⟩ [], numeral ds],
      .application ⟨5 + d⟩ []]

/-- The cons list of its elements over `listSig`. -/
def listTerm : List Term → Term
  | [] => .application ⟨4⟩ []
  | e :: es => .application ⟨0⟩ [.application ⟨0⟩ [.application ⟨3⟩ [], e], listTerm es]

/-- The digits of `2^64 + 5`, least significant first. -/
def bigDigits : List Nat := [1, 2, 6, 1, 5, 5, 9, 0, 7, 3, 7, 0, 4, 4, 7, 6, 4, 4, 8, 1]

/-- `k * 10 + d` wraps in a release build: the twenty-digit numeral of `2^64 + 5` is read as
`5` and passes the `n < 100` check, so `p_list` hands `PString::new` the same string, the digit
operator `5`, for the lists `[5]` and `[2^64 + 5]`. -/
theorem pListStrings_wraps :
    numeralValue bigDigits = 2 ^ 64 + 5 ∧ numToUsize listSig (numeral bigDigits) = some 5 ∧
      pListStrings listSig (listTerm [numeral [5]]) (listTerm [numeral bigDigits]) =
        some ([.operator ⟨10⟩], [.operator ⟨10⟩], listSig) := by
  decide

/-! ### What `num_to_usize` reads -/

/-- The integer a numeral denotes, with no bound: `.(DIGIT, d)` is `d` and `.(.(DECC, k), d)`
is `10 k + d`, the integer whose decimal form `num_to_atom` should name. -/
def numValue (sig : Signature) : Term → Option Nat
  | .application op (a0 :: a1 :: _) =>
    if op.name sig = some "." ∧ op.arity sig = 2 then
      if (a0.asGuardedApplication sig "DIGIT" 0).isSome then digitToUsize sig a1
      else
        match a0 with
        | .application op₀ (i0 :: i1 :: _) =>
          if op₀.name sig = some "." ∧ op₀.arity sig = 2 ∧
              (i0.asGuardedApplication sig "DECC" 0).isSome then
            (numValue sig i1).bind fun sigs => (digitToUsize sig a1).map fun digit => sigs * 10 + digit
          else none
        | _ => none
    else none
  | _ => none

/-- `num_to_usize` panics only on terms that are no numerals and not well formed. -/
theorem numToUsizePanics_spec {sig : Signature} :
    ∀ {t : Term}, numToUsizePanics sig t = true → numValue sig t = none ∧ t.wellFormed sig = false
  | .variable _, h => by unfold numToUsizePanics at h; cases h
  | .application op [], h
  | .application op [_], h => by
    unfold numToUsizePanics at h
    split_ifs at h with hdot
    exact ⟨rfl, by simp [hdot.2]⟩
  | .application op (.variable _ :: _ :: _), h => by
    unfold numToUsizePanics at h
    simp [Term.asGuardedApplication] at h
  | .application op (.application op₀ [] :: _ :: _), h
  | .application op (.application op₀ [_] :: _ :: _), h => by
    unfold numToUsizePanics at h
    split_ifs at h with hdot
    dsimp only at h
    split_ifs at h with hdig hdot₀
    · cases h
    · exact ⟨by simp [numValue, hdot, hdig], by simp [hdot.2, hdot₀.2]⟩
  | .application op (.application op₀ (i0 :: i1 :: irest) :: a1 :: rest), h => by
    unfold numToUsizePanics at h
    split_ifs at h with hdot
    dsimp only at h
    split_ifs at h with hdig hdot₀
    · cases h
    · simp only [List.isEmpty_cons, Bool.and_false, Bool.or_false, Bool.and_eq_true] at h
      obtain ⟨hv, hw⟩ := numToUsizePanics_spec h.2
      exact ⟨by simp [numValue, hdot, hdig, hdot₀, h.1, hv], by simp [hw]⟩

example : numValue listSig (numeral bigDigits) = some (2 ^ 64 + 5) := by decide

/-! ### Atoms of numbers below the wrap -/

/-- `num_to_atom` on a value below 100: the lookup, else `new_op`. -/
theorem numToAtom_of_value {sig : Signature} {t : Term} {n : Nat}
    (hn : numToUsize sig t = some n) (h100 : n < 100) :
    numToAtom sig t = match sig.nullaryNamed (toString n) with
      | some op => (some (.operator op), sig)
      | none => (some (.operator (sig.newOp 0 (some (toString n))).1),
          (sig.newOp 0 (some (toString n))).2) := by
  simp only [numToAtom, hn, if_pos h100]
  rfl

theorem lt_of_numToAtom {sig : Signature} {t : Term} {n : Nat} (hn : numToUsize sig t = some n)
    (hx : (numToAtom sig t).1.isSome) : n < 100 := by
  by_contra h
  simp [numToAtom, hn, h] at hx

/-- `num_to_atom` only appends to the signature. -/
theorem numToAtom_grows (sig : Signature) (t : Term) :
    sig.sig.operators <+: (numToAtom sig t).2.sig.operators := by
  cases hn : numToUsize sig t with
  | none => simp only [numToAtom, hn, List.prefix_refl]
  | some n =>
    by_cases h100 : n < 100
    · rw [numToAtom_of_value hn h100]
      split
      · exact List.prefix_refl _
      · exact List.prefix_append _ _
    · simp only [numToAtom, hn, if_neg h100, List.prefix_refl]

/-- The atom `num_to_atom` returns is the first nullary operator named by the value in the
signature it returns, which is the signature it was given when that operator was there. -/
theorem numToAtom_nullaryNamed {sig sig' : Signature} {t : Term} {n : Nat} {x : Atom}
    (hn : numToUsize sig t = some n) (h : numToAtom sig t = (some x, sig')) :
    ∃ op, x = .operator op ∧ sig'.nullaryNamed (toString n) = some op ∧
      ((sig.nullaryNamed (toString n)).isSome → sig' = sig) := by
  rw [numToAtom_of_value hn (lt_of_numToAtom hn (by simp only [h, Option.isSome_some]))] at h
  cases hf : sig.nullaryNamed (toString n) with
  | some op =>
    simp only [hf, Prod.mk.injEq, Option.some.injEq] at h
    obtain ⟨rfl, rfl⟩ := h
    exact ⟨op, rfl, hf, fun _ => rfl⟩
  | none =>
    simp only [hf, Prod.mk.injEq, Option.some.injEq] at h
    obtain ⟨rfl, rfl⟩ := h
    exact ⟨_, rfl, Signature.nullaryNamed_newOp hf, fun h => absurd h (by simp)⟩

/-- A relation between signatures that is reflexive and transitive and that every `num_to_atom`
call makes holds between the signature `convert_list_to_string` is given and the one it leaves:
the conversion changes the signature only through `num_to_atom`. -/
theorem convertListToString_rel (r : Signature → Signature → Prop) (hrefl : ∀ s, r s s)
    (htrans : ∀ {a b c}, r a b → r b c → r a c) (hstep : ∀ s t, r s (numToAtom s t).2)
    (sig : Signature) (t : Term) : r sig (convertListToString sig t).2 := by
  induction sig, t using convertListToString.induct with
  | case1 t sig hnil => unfold convertListToString; rw [if_pos hnil]; exact hrefl _
  | case2 sig op i0 i1 tail hdot _ _ j1 _ h0 hcons atom sig₁ hatom _ sig₂ hrest hnil ih
  | case3 sig op i0 i1 tail hdot _ _ j1 _ h0 hcons atom sig₁ hatom sig₂ hrest hnil ih =>
    unfold convertListToString
    simp only [if_neg hnil, if_pos hdot, h0, if_pos hcons, hatom, hrest]
    exact htrans (by simpa only [hatom] using hstep sig j1) (by simpa only [hrest] using ih)
  | case4 sig op i0 i1 tail hdot _ _ j1 _ h0 hcons sig₁ hatom hnil =>
    unfold convertListToString
    simp only [if_neg hnil, if_pos hdot, h0, if_pos hcons, hatom]
    simpa only [hatom] using hstep sig j1
  | case5 sig op i0 i1 tail hdot _ _ _ _ h0 hcons hnil =>
    unfold convertListToString
    simp only [if_neg hnil, if_pos hdot, h0, if_neg hcons]
    exact hrefl _
  | case6 sig op i0 i1 tail hdot h0 hnil =>
    unfold convertListToString
    simp only [if_neg hnil, if_pos hdot]
    exact hrefl _
  | case7 sig op i0 i1 tail hdot hnil =>
    unfold convertListToString
    simp only [if_neg hnil, if_neg hdot]
    exact hrefl _
  | case8 t sig hnil ht =>
    unfold convertListToString
    rw [if_neg hnil]
    split
    · exact absurd rfl (ht _ _ _ _)
    · exact hrefl _

/-- `convert_list_to_string` only appends to the signature, so each call of `p_list`'s
sequence runs on a signature that grows the one every earlier call returned. -/
theorem convertListToString_grows (sig : Signature) (t : Term) :
    sig.sig.operators <+: (convertListToString sig t).2.sig.operators :=
  convertListToString_rel (fun s s' => s.sig.operators <+: s'.sig.operators)
    (fun _ => List.prefix_refl _) List.IsPrefix.trans numToAtom_grows sig t

/-- The number a string of decimal digits denotes. -/
def decimalValue (cs : List Char) : Nat := cs.foldl (fun v c => 10 * v + (c.toNat - 48)) 0

theorem decimalValue_toString : ∀ n < 100, decimalValue (toString n).toList = n := by
  decide

/-- Below the wrap, `num_to_atom` is a function of the value `num_to_usize` reads, and one to
one, on any signature grown from the one an earlier call returned (as every later call of
`p_list`'s sequence runs, `convertListToString_grows`): a value's later call finds the
operator its first call found or made, and leaves the signature as it is, so `new_op` runs at
most once per value. -/
theorem numToAtom_function_of_value {sig₀ sig₁ sig₂ sig₃ : Signature} {a b : Term} {x y : Atom}
    {n m : Nat} (ha : numToAtom sig₀ a = (some x, sig₁)) (hn : numToUsize sig₀ a = some n)
    (hg : sig₁.sig.operators <+: sig₂.sig.operators)
    (hb : numToAtom sig₂ b = (some y, sig₃)) (hm : numToUsize sig₂ b = some m) :
    (x = y ↔ n = m) ∧ (n = m → sig₃ = sig₂) := by
  obtain ⟨op₁, rfl, h₁, -⟩ := numToAtom_nullaryNamed hn ha
  obtain ⟨op₂, rfl, h₃, hsame⟩ := numToAtom_nullaryNamed hm hb
  have h₂ := Signature.nullaryNamed_of_prefix hg h₁
  have hsame' : n = m → sig₃ = sig₂ := fun e => hsame (by rw [← e, h₂]; rfl)
  refine ⟨⟨fun e => ?_, fun e => ?_⟩, hsame'⟩
  · -- one operator has one name
    have hgrow : sig₂.sig.operators <+: sig₃.sig.operators := by
      simpa only [hb] using numToAtom_grows sig₂ b
    have hname := (Signature.nullaryNamed_name (Signature.nullaryNamed_of_prefix hgrow h₂)).1
    rw [Atom.operator.inj e, (Signature.nullaryNamed_name h₃).1, Option.some.injEq] at hname
    rw [← decimalValue_toString n (lt_of_numToAtom hn (by simp only [ha, Option.isSome_some])),
      ← decimalValue_toString m (lt_of_numToAtom hm (by simp only [hb, Option.isSome_some])),
      hname]
  · -- the later call finds the operator the first one left
    rw [hsame' e, ← e, h₂, Option.some.injEq] at h₃
    rw [h₃]

/-- `42` twice over `listSig`: the first call makes the operator `"42"`, the second finds it. -/
theorem numToAtom_function_of_value_twice :
    numToAtom listSig (numeral [2, 4]) =
        (some (.operator ⟨15⟩), (listSig.newOp 0 (some "42")).2) ∧
      numToUsize listSig (numeral [2, 4]) = some 42 ∧
      numToAtom (listSig.newOp 0 (some "42")).2 (numeral [2, 4]) =
        (some (.operator ⟨15⟩), (listSig.newOp 0 (some "42")).2) ∧
      numToUsize (listSig.newOp 0 (some "42")).2 (numeral [2, 4]) = some 42 ∧
      ((Atom.operator ⟨15⟩ = .operator ⟨15⟩ ↔ 42 = 42) ∧
        (42 = 42 → (listSig.newOp 0 (some "42")).2 = (listSig.newOp 0 (some "42")).2)) := by
  have ha : numToAtom listSig (numeral [2, 4]) =
      (some (.operator ⟨15⟩), (listSig.newOp 0 (some "42")).2) := by decide
  have hn : numToUsize listSig (numeral [2, 4]) = some 42 := by decide
  have hb : numToAtom (listSig.newOp 0 (some "42")).2 (numeral [2, 4]) =
      (some (.operator ⟨15⟩), (listSig.newOp 0 (some "42")).2) := by decide
  have hm : numToUsize (listSig.newOp 0 (some "42")).2 (numeral [2, 4]) = some 42 := by decide
  exact ⟨ha, hn, hb, hm, numToAtom_function_of_value ha hn (List.prefix_refl _) hb hm⟩

/-! ### Where the conversions panic -/

/-- `num_to_atom` appends only nullary operators, so no arity changes. -/
theorem arity_numToAtom (sig : Signature) (t : Term) (o : Operator) :
    o.arity (numToAtom sig t).2 = o.arity sig := by
  cases hn : numToUsize sig t with
  | none => simp only [numToAtom, hn]
  | some n =>
    by_cases h100 : n < 100
    · rw [numToAtom_of_value hn h100]
      split
      · rfl
      · exact Signature.arity_newOp sig _ o
    · simp only [numToAtom, hn, if_neg h100]

/-- `convert_list_to_string` appends only nullary operators, so no arity changes. -/
theorem arity_convertListToString (sig : Signature) (t : Term) (o : Operator) :
    o.arity (convertListToString sig t).2 = o.arity sig :=
  convertListToString_rel (fun s s' => ∀ o : Operator, o.arity s' = o.arity s) (fun _ _ => rfl)
    (fun h₁ h₂ o => (h₂ o).trans (h₁ o)) (arity_numToAtom · ·) sig t o

/-- Where `TRS::convert_list_to_string` panics: it reads `args[0]` and `args[1]` of a `"."` cell,
and `inner_args[0]` and `inner_args[1]` of the `"."` application in `args[0]`, without checking
that they exist, and `num_to_atom` panics where `num_to_usize` does. `convertListToString` gives
`none` there. -/
def convertListToStringPanics (sig : Signature) (term : Term) : Bool :=
  if (term.asGuardedApplication sig "NIL" 0).isSome then false
  else
    match term with
    | .application op args =>
      if op.name sig = some "." ∧ op.arity sig = 2 then
        match args with
        | [] => true
        | a0 :: rest =>
          match a0.asGuardedApplication sig "." 2 with
          | some (_, []) => true
          | some (_, i0 :: irest) =>
            (i0.asGuardedApplication sig "CONS" 0).isSome &&
              match irest with
              | [] => true
              | i1 :: _ =>
                numToUsizePanics sig i1 ||
                  match numToAtom sig i1, rest with
                  | (some _, _), [] => true
                  | (some _, sig), a1 :: _ => convertListToStringPanics sig a1
                  | (none, _), _ => false
          | none => false
      else false
    | .variable _ => false

/-- `convert_list_to_string` panics only on terms that are not well formed. -/
theorem convertListToStringPanics_spec : ∀ {sig : Signature} {t : Term},
    convertListToStringPanics sig t = true → t.wellFormed sig = false
  | _, .variable _, h => by
    unfold convertListToStringPanics at h
    simp [Term.asGuardedApplication] at h
  | sig, .application op [], h
  | sig, .application op [_], h => by
    unfold convertListToStringPanics at h
    split_ifs at h with hnil
    dsimp only at h
    split_ifs at h with hdot
    simp [hdot.2]
  | sig, .application op (a0 :: a1 :: rest), h => by
    unfold convertListToStringPanics at h
    split_ifs at h with hnil
    dsimp only at h
    split_ifs at h with hdot
    suffices a0.wellFormed sig = false ∨ a1.wellFormed sig = false by
      rcases this with h' | h' <;> simp [h']
    rcases a0 with _ | ⟨op₀, inner⟩
    · simp [Term.asGuardedApplication] at h
    simp only [Term.asGuardedApplication] at h
    split_ifs at h with hdot₀
    rcases inner with _ | ⟨i0, _ | ⟨i1, irest⟩⟩
    · exact .inl (by simp [hdot₀.2])
    · exact .inl (by simp [hdot₀.2])
    simp only [Bool.and_eq_true, Bool.or_eq_true] at h
    rcases h.2 with hi | hrest
    · exact .inl (by simp [(numToUsizePanics_spec hi).2])
    · right
      rcases hA : numToAtom sig i1 with ⟨_ | x, sig'⟩
      · simp [hA] at hrest
      · simp only [hA] at hrest
        have hg : ∀ o : Operator, o.arity sig' = o.arity sig := fun o => by
          simpa only [hA] using arity_numToAtom sig i1 o
        rw [← Term.wellFormed_congr hg]
        exact convertListToStringPanics_spec hrest

/-- Where `TRS::p_list` panics: converting `x`, or then `y` on the signature that converting
`x` grew. -/
def pListPanics (sig : Signature) (x y : Term) : Bool :=
  convertListToStringPanics sig x || convertListToStringPanics (convertListToString sig x).2 y

/-- `p_list` panics only where one of its lists is not well formed. -/
theorem wellFormed_of_pListPanics {sig : Signature} {x y : Term} (h : pListPanics sig x y = true) :
    x.wellFormed sig = false ∨ y.wellFormed sig = false := by
  rcases Bool.or_eq_true_iff.mp h with hx | hy
  · exact .inl (convertListToStringPanics_spec hx)
  · rw [← Term.wellFormed_congr (arity_convertListToString sig x) y]
    exact .inr (convertListToStringPanics_spec hy)

end TRS

end TermRewriting
