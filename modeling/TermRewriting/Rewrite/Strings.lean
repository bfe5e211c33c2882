import TermRewriting.Rewrite.WellFormed

/-! What `Strategy::String` can rely on. Reading a string of leaves back as a left-leaning
`"."` tree and converting the tree to a string gives the string again. For a well-formed
rule with a string form, the pattern is non-empty, every break vector `gen_breaks` builds runs
from `0` to `n` without decreasing, and a match binds every variable a clause can use. -/
namespace TermRewriting

namespace TRS

/-! ### The round trip -/

theorem convertTermToString_toTerm {sig : Signature} {a : Atom} (h : a.isLeaf sig) :
    convertTermToString sig a.toTerm = some [a] := by
  cases a with
  | «variable» v => rfl
  | operator o =>
    simp only [Atom.isLeaf, beq_iff_eq] at h
    simp [Atom.toTerm, convertTermToString, h]

theorem convertTermToString_dot {sig : Signature} {bin : Operator} (harity : bin.arity sig = 2)
    (hname : bin.name sig = some ".") {t u : Term} {s₁ s₂ : List Atom}
    (ht : convertTermToString sig t = some s₁) (hu : convertTermToString sig u = some s₂) :
    convertTermToString sig (.application bin [t, u]) = some (s₁ ++ s₂) := by
  simp [convertTermToString, convertArgsToString, harity, hname, ht, hu]

/-- The fold of `convert_to_term` appends one leaf per step to the string of the tree. -/
theorem convertTermToString_foldl {sig : Signature} {bin : Operator} (harity : bin.arity sig = 2)
    (hname : bin.name sig = some ".") :
    ∀ (rest : List Atom) (t : Term) (s : List Atom), convertTermToString sig t = some s →
      (∀ c ∈ rest, c.isLeaf sig) →
      convertTermToString sig (rest.foldl (fun term c => .application bin [term, c.toTerm]) t) =
        some (s ++ rest)
  | [], _, s, h, _ => by simpa using h
  | c :: rest, t, s, h, hc => by
    rw [List.foldl_cons, convertTermToString_foldl harity hname rest _ (s ++ [c])
      (convertTermToString_dot harity hname h (convertTermToString_toTerm (hc c (.head _))))
      fun c' h' => hc c' (.tail _ h'), List.append_assoc, List.singleton_append]

theorem binOp_eq_some {sig : Signature}
    (hdot : ∃ op ∈ sig.operators, op.arity sig = 2 ∧ op.name sig = some ".") :
    ∃ bin, binOp sig = some bin ∧ bin.arity sig = 2 ∧ bin.name sig = some "." := by
  cases hb : binOp sig with
  | none =>
    obtain ⟨op, hop, hp⟩ := hdot
    have := List.find?_eq_none.mp hb op hop
    simp [hp] at this
  | some bin =>
    have := List.find?_some hb
    simp only [decide_eq_true_eq] at this
    exact ⟨bin, rfl, this⟩

/-- With a binary `"."` in the signature, `convert_term_to_string` reads back every non-empty
string of variables and nullary operators that `convert_to_term` builds a tree from. -/
theorem convertTermToString_convertToTerm {sig : Signature}
    (hdot : ∃ op ∈ sig.operators, op.arity sig = 2 ∧ op.name sig = some ".") {s : List Atom}
    (hs : s ≠ []) (hleaf : ∀ a ∈ s, a.isLeaf sig) :
    ∃ t, convertToTerm sig s = some t ∧ convertTermToString sig t = some s := by
  obtain ⟨bin, hb, harity, hname⟩ := binOp_eq_some hdot
  obtain ⟨a, rest, rfl⟩ := List.exists_cons_of_ne_nil hs
  refine ⟨rest.foldl (fun term c => .application bin [term, c.toTerm]) a.toTerm,
    by simp [convertToTerm, hb], ?_⟩
  exact convertTermToString_foldl harity hname rest _ [a]
    (convertTermToString_toTerm (hleaf a (.head _))) fun c hc => hleaf c (.tail _ hc)

theorem convertTermToString_convertToTerm_example :
    (∃ op ∈ exampleSig.operators, op.arity exampleSig = 2 ∧ op.name exampleSig = some ".") ∧
      [Atom.operator ⟨1⟩, .variable ⟨0⟩, .operator ⟨2⟩] ≠ [] ∧
      (∀ a ∈ [Atom.operator ⟨1⟩, .variable ⟨0⟩, .operator ⟨2⟩], a.isLeaf exampleSig) ∧
      ∃ t, convertToTerm exampleSig [.operator ⟨1⟩, .variable ⟨0⟩, .operator ⟨2⟩] = some t ∧
        convertTermToString exampleSig t = some [.operator ⟨1⟩, .variable ⟨0⟩, .operator ⟨2⟩] :=
  have hdot : ∃ op ∈ exampleSig.operators, op.arity exampleSig = 2 ∧
      op.name exampleSig = some "." := ⟨⟨0⟩, by decide, rfl, rfl⟩
  ⟨hdot, by decide, by decide, convertTermToString_convertToTerm hdot (by decide) (by decide)⟩

/-! ### Patterns and break vectors -/

theorem mem_combinations {α : Type} : ∀ {k : Nat} {l x : List α}, x ∈ combinations k l →
    x.Sublist l ∧ x.length = k
  | 0, _, x, h => by
    simp only [combinations, List.mem_singleton] at h
    subst h
    exact ⟨List.nil_sublist _, rfl⟩
  | _ + 1, [], _, h => by simp [combinations] at h
  | k + 1, a :: as, x, h => by
    simp only [combinations, List.mem_append, List.mem_map] at h
    rcases h with ⟨y, hy, rfl⟩ | h
    · obtain ⟨hs, hl⟩ := mem_combinations hy
      exact ⟨hs.cons₂ a, by simp [hl]⟩
    · obtain ⟨hs, hl⟩ := mem_combinations h
      exact ⟨hs.cons a, hl⟩

/-- A candidate of `gen_breaks`: `0`, then increasing points of `0..=n`, then `n`. -/
theorem breaks_of_mem_combinations {n k : Nat} {x : List Nat}
    (hx : x ∈ combinations k (List.range (n + 1))) :
    (0 :: x ++ [n]).length = k + 2 ∧ (0 :: x ++ [n]).Pairwise (· ≤ ·) ∧
      (0 :: x ++ [n]).head? = some 0 ∧ (0 :: x ++ [n]).getLast? = some n := by
  obtain ⟨hs, hl⟩ := mem_combinations hx
  have hle : ∀ y ∈ x, y ≤ n := fun y hy => Nat.lt_succ_iff.mp (List.mem_range.mp (hs.subset hy))
  refine ⟨by simp [hl], ?_, rfl, List.getLast?_concat _⟩
  simp only [List.cons_append, List.pairwise_cons, List.pairwise_append, List.mem_singleton,
    List.mem_append]
  exact ⟨fun _ _ => Nat.zero_le _, ((List.pairwise_lt_range _).sublist hs).imp Nat.le_of_lt,
    by simp, fun y hy _ h => h ▸ hle y hy⟩

theorem convertArgsToString_cons {sig : Signature} {a : Term} {as : List Term} {s : List Atom}
    (h : convertArgsToString sig (a :: as) = some s) :
    ∃ s₁ s₂, convertTermToString sig a = some s₁ ∧ convertArgsToString sig as = some s₂ ∧
      s = s₁ ++ s₂ := by
  simp only [convertArgsToString] at h
  split at h
  · cases h
    exact ⟨_, _, ‹_›, ‹_›, rfl⟩
  · cases h

/-- A well-formed term has a non-empty string, if any. -/
theorem convertTermToString_ne_nil {sig : Signature} : ∀ t : Term, t.wellFormed sig →
    ∀ s, convertTermToString sig t = some s → s ≠ [] := by
  refine Term.induction (fun v _ s h => ?_) (fun op args ih hw s h => ?_)
  · simp only [convertTermToString, Option.some.injEq] at h
    simp [← h]
  · obtain ⟨hl, ha⟩ := wellFormed_application_iff.mp hw
    simp only [convertTermToString] at h
    split_ifs at h with h0 hdot
    · simp [← Option.some.inj h]
    · obtain ⟨a, b, rfl⟩ := List.length_eq_two.mp (hl.trans hdot.2)
      obtain ⟨s₁, s₂, h₁, -, rfl⟩ := convertArgsToString_cons h
      exact List.append_ne_nil_of_left_ne_nil (ih a (.head _) (ha a (.head _)) s₁ h₁) _

/-- For a well-formed term, the variables of its string are the variables of the term. -/
theorem mem_convertTermToString (sig : Signature) : ∀ t : Term, t.wellFormed sig →
    ∀ s, convertTermToString sig t = some s → ∀ v, .variable v ∈ s ↔ v ∈ t.vars := by
  refine convertTermToString.induct sig _
    (fun as => (∀ a ∈ as, a.wellFormed sig) → ∀ s, convertArgsToString sig as = some s →
      ∀ v, .variable v ∈ s ↔ v ∈ as.flatMap Term.vars)
    (fun w _ s h v => ?_) (fun op args h0 hw s h v => ?_) (fun op args h0 hdot ih hw s h v => ?_)
    (fun op args h0 hdot _ s h => ?_) (fun _ s h v => ?_)
    (fun a as s ss hss hs iha ihas hw s' h v => ?_) (fun a as hne _ _ _ s h => ?_)
  · simp only [convertTermToString, Option.some.injEq] at h
    subst h
    simp [Term.vars]
  · simp only [convertTermToString, h0, if_true, Option.some.injEq] at h
    subst h
    obtain ⟨hl, -⟩ := wellFormed_application_iff.mp hw
    rw [h0, List.length_eq_zero] at hl
    subst hl
    simp [Term.vars]
  · simp only [convertTermToString, h0, hdot, if_false, if_true, and_self] at h
    rw [ih (wellFormed_application_iff.mp hw).2 s h v]
    simp [Term.vars]
  · simp [convertTermToString, h0, hdot] at h
  · simp only [convertArgsToString, Option.some.injEq] at h
    subst h
    simp
  · simp only [convertArgsToString, hs, hss, Option.some.injEq] at h
    subst h
    rw [List.mem_append, iha (hw a (.head _)) s hs v,
      ihas (fun b hb => hw b (.tail _ hb)) ss hss v, List.flatMap_cons, List.mem_append]
  · simp only [convertArgsToString] at h
    cases h

/-- A match binds every variable it already had and every variable of the pattern. -/
theorem matchPatternFrom_lookup (breaks : List Nat) (string : List Atom) :
    ∀ (i : Nat) (pattern : List Atom) (bindings res : List (Variable × List Atom)),
      matchPatternFrom breaks string i pattern bindings = some res →
      ∀ v, (bindings.lookup v).isSome ∨ .variable v ∈ pattern → (res.lookup v).isSome
  | _, [], bindings, res, h, v, hv => by
    cases h
    exact hv.resolve_right (List.not_mem_nil _)
  | i, atom :: pattern, bindings, res, h, v, hv => by
    -- past this atom, `v` is bound or still ahead in the pattern
    have next : ∀ b : List (Variable × List Atom),
        (∀ w, (bindings.lookup w).isSome → (b.lookup w).isSome) →
        (∀ w, atom = .variable w → (b.lookup w).isSome) →
        (b.lookup v).isSome ∨ .variable v ∈ pattern := fun b hb ha => by
      rcases hv with hv | hv | ⟨_, hv⟩
      · exact .inl (hb v hv)
      · exact .inl (ha v rfl)
      · exact .inr hv
    unfold matchPatternFrom at h
    dsimp only at h
    split at h
    · split at h
      · rename_i m hm
        split at h
        · cases h
        · exact matchPatternFrom_lookup breaks string _ pattern _ _ h v
            (next _ (fun _ => id) fun u hu => by cases hu; simp [hm])
      · refine matchPatternFrom_lookup breaks string _ pattern _ _ h v
          (next _ (fun u hu => ?_) fun u hu => by cases hu; simp [List.lookup])
        simp only [List.lookup]
        split <;> simp [hu]
    · split at h
      · cases h
      · exact matchPatternFrom_lookup breaks string _ pattern _ _ h v
          (next _ (fun _ => id) fun _ hu => by cases hu)

/-- `substitute_pattern` succeeds when every variable of the pattern is bound. -/
theorem substitutePattern_isSome : ∀ (pattern : List Atom) (bindings : List (Variable × List Atom)),
    (∀ v, .variable v ∈ pattern → (bindings.lookup v).isSome) →
      (substitutePattern pattern bindings).isSome
  | [], _, _ => rfl
  | .variable v :: pattern, bindings, h => by
    obtain ⟨seg, hseg⟩ := Option.isSome_iff_exists.mp (h v (.head _))
    obtain ⟨rest, hrest⟩ := Option.isSome_iff_exists.mp
      (substitutePattern_isSome pattern bindings fun w hw => h w (.tail _ hw))
    simp [substitutePattern, hseg, hrest]
  | .operator o :: pattern, bindings, h => by
    simp only [substitutePattern, Option.isSome_map']
    exact substitutePattern_isSome pattern bindings fun w hw => h w (.tail _ hw)

/-- For a well-formed rule with the rule invariants and a string form: the pattern is
non-empty, so `pattern.len() - 1` does not underflow; every break vector of `gen_breaks` has
`pattern.len() + 1` entries running from `0` to `n` without decreasing, so the subtractions
of `valid_option` and the slices of `match_pattern` stay in range; and after any match
`substitute_pattern` succeeds on every clause, whose variables the LHS binds. -/
theorem stringRule_safe {sig : Signature} {rule : Rule} (hw : rule.wellFormed sig) (hv : rule.Valid)
    {lhs : List Atom} {rhs : List (List Atom)} (hc : convertRuleToStrings sig rule = some (lhs, rhs)) :
    lhs ≠ [] ∧
      (∀ n bs, genBreaks lhs n = some bs → ∀ b ∈ bs,
        b.length = lhs.length + 1 ∧ b.Pairwise (· ≤ ·) ∧ b.head? = some 0 ∧ b.getLast? = some n) ∧
      (∀ breaks string bindings, matchPattern lhs breaks string = some bindings →
        ∀ r ∈ rhs, (substitutePattern r bindings).isSome) := by
  simp only [convertRuleToStrings] at hc
  split at hc
  · rename_i l rs hl hrs
    cases hc
    simp only [Rule.wellFormed, Bool.and_eq_true, List.all_eq_true] at hw
    have hne := convertTermToString_ne_nil _ hw.1 _ hl
    refine ⟨hne, fun n bs hbs b hb => ?_, fun breaks string bindings hm r hr => ?_⟩
    · simp only [genBreaks, Option.some.injEq] at hbs
      subst hbs
      obtain ⟨x, hx, rfl⟩ := List.mem_map.mp (List.mem_filter.mp hb).1
      obtain ⟨h1, h2, h3, h4⟩ := breaks_of_mem_combinations hx
      have := List.length_pos.mpr hne
      exact ⟨by omega, h2, h3, h4⟩
    · obtain ⟨c, hc, hcr⟩ := exists_of_mem_mapM hrs r hr
      refine substitutePattern_isSome r bindings fun v hvr => ?_
      have hvc := (mem_convertTermToString sig c (hw.2 c hc) r hcr v).mp hvr
      exact matchPatternFrom_lookup breaks string 0 lhs [] bindings hm v
        (.inr ((mem_convertTermToString sig rule.lhs hw.1 lhs hl v).mpr (hv.rhs_vars c hc v hvc)))
  · cases hc

/-- `.(x_, A) = x_`: the string pattern `x_ A`, rewritten to `x_`. -/
def stringRule : Rule := ⟨.application ⟨0⟩ [.variable ⟨0⟩, .application ⟨1⟩ []], [.variable ⟨0⟩]⟩

theorem stringRule_safe_example :
    stringRule.wellFormed exampleSig = true ∧ stringRule.Valid ∧
      convertRuleToStrings exampleSig stringRule =
        some ([.variable ⟨0⟩, .operator ⟨1⟩], [[.variable ⟨0⟩]]) ∧
      ([Atom.variable ⟨0⟩, .operator ⟨1⟩] ≠ [] ∧
        (∀ n bs, genBreaks [.variable ⟨0⟩, .operator ⟨1⟩] n = some bs → ∀ b ∈ bs,
          b.length = [Atom.variable ⟨0⟩, .operator ⟨1⟩].length + 1 ∧ b.Pairwise (· ≤ ·) ∧
            b.head? = some 0 ∧ b.getLast? = some n) ∧
        (∀ breaks string bindings, matchPattern [.variable ⟨0⟩, .operator ⟨1⟩] breaks string =
          some bindings → ∀ r ∈ [[Atom.variable ⟨0⟩]], (substitutePattern r bindings).isSome)) :=
  have hw : stringRule.wellFormed exampleSig = true := by decide
  have hv : stringRule.Valid := by decide
  have hc : convertRuleToStrings exampleSig stringRule =
      some ([.variable ⟨0⟩, .operator ⟨1⟩], [[.variable ⟨0⟩]]) := by decide
  ⟨hw, hv, hc, stringRule_safe hw hv hc⟩

end TRS

end TermRewriting
