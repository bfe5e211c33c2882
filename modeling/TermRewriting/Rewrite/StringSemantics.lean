import TermRewriting.Rewrite.Strings

/-! `Strategy::String` against the string rewrites of the rules: the LHS pattern of a rule,
instantiated by some bindings, is the whole string of the term, and the clause pattern under the
same bindings is the string of the result. On the break vectors `gen_breaks` emits, the match
and `substitute_pattern` are inverse, so every term the strategy yields is such a rewrite; and
every such rewrite whose interior segments are non-empty is yielded, unless the strategy gives
up. It gives up, and yields nothing at all, exactly when some match instantiates a clause to the
empty string. -/
namespace TermRewriting

theorem segment_append (string : List Atom) {a b c : Nat} (hab : a ≤ b) (hbc : b ≤ c) :
    segment string a b ++ segment string b c = segment string a c := by
  unfold segment
  rw [show c - a = (b - a) + (c - b) by omega, List.take_add, List.drop_drop,
    Nat.add_sub_cancel' hab]

theorem getD_le_getD {l : List Nat} (h : l.Pairwise (· ≤ ·)) {j k : Nat} (hjk : j ≤ k)
    (hk : k < l.length) : l.getD j 0 ≤ l.getD k 0 := by
  rcases hjk.lt_or_eq with hjk | rfl
  · rw [List.getD_eq_getElem _ _ (by omega), List.getD_eq_getElem _ _ hk]
    exact List.pairwise_iff_getElem.mp h j k (by omega) hk hjk
  · exact le_rfl

namespace TRS

/-! ### Soundness -/

/-- A match from position `i` keeps every binding it had and binds each variable of the pattern
so that the pattern spells the string between the breaks at `i` and at `i + pattern.len()`. -/
theorem matchPatternFrom_substitute (breaks : List Nat) (string : List Atom)
    (hmono : breaks.Pairwise (· ≤ ·)) :
    ∀ (i : Nat) (pattern : List Atom) (bindings res : List (Variable × List Atom)),
      i + pattern.length < breaks.length →
      matchPatternFrom breaks string i pattern bindings = some res →
      (∀ v m, bindings.lookup v = some m → res.lookup v = some m) ∧
        substitutePattern pattern res =
          some (segment string (breaks.getD i 0) (breaks.getD (i + pattern.length) 0))
  | i, [], bindings, res, _, h => by
    cases h
    simp [substitutePattern, segment]
  | i, atom :: pattern, bindings, res, hlen, h => by
    rw [List.length_cons, ← Nat.add_assoc, Nat.add_right_comm] at hlen ⊢
    have happ : segment string (breaks.getD i 0) (breaks.getD (i + 1) 0) ++
        segment string (breaks.getD (i + 1) 0) (breaks.getD (i + 1 + pattern.length) 0) =
        segment string (breaks.getD i 0) (breaks.getD (i + 1 + pattern.length) 0) :=
      segment_append string (getD_le_getD hmono (by omega) (by omega))
        (getD_le_getD hmono (by omega) hlen)
    unfold matchPatternFrom at h
    dsimp only at h
    split at h
    · rename_i v
      split at h
      · rename_i m hm
        split_ifs at h with hne
        obtain ⟨he, hs⟩ := matchPatternFrom_substitute breaks string hmono _ pattern _ _ hlen h
        refine ⟨he, ?_⟩
        simp only [substitutePattern, he v m hm, hs]
        rw [not_not.mp hne, happ]
      · rename_i hv
        obtain ⟨he, hs⟩ := matchPatternFrom_substitute breaks string hmono _ pattern _ _ hlen h
        refine ⟨fun w m hw => he w m ?_, ?_⟩
        · have : w ≠ v := by rintro rfl; simp [hv] at hw
          simpa [List.lookup, beq_false_of_ne this] using hw
        · have hv' : res.lookup v =
              some (segment string (breaks.getD i 0) (breaks.getD (i + 1) 0)) :=
            he v _ (by rw [List.lookup, beq_self_eq_true])
          simp only [substitutePattern, hv', hs, happ]
    · split_ifs at h with hne
      obtain ⟨he, hs⟩ := matchPatternFrom_substitute breaks string hmono _ pattern _ _ hlen h
      refine ⟨he, ?_⟩
      simp only [substitutePattern, hs, Option.map_some', ← happ, not_not.mp hne]
      rfl

theorem convertRuleToStrings_eq_some {sig : Signature} {rule : Rule} {lhs : List Atom}
    {rhss : List (List Atom)} (h : convertRuleToStrings sig rule = some (lhs, rhss)) :
    convertTermToString sig rule.lhs = some lhs ∧
      rule.rhs.mapM (convertTermToString sig) = some rhss := by
  unfold convertRuleToStrings at h
  split at h
  · cases h
    exact ⟨‹_›, ‹_›⟩
  · cases h

/-- A string `convert_to_term` builds a tree from is the string of that tree, when it is made of
leaves. -/
theorem convertTermToString_of_convertToTerm {sig : Signature} {s : List Atom} {u : Term}
    (h : convertToTerm sig s = some u) (hs : ∀ a ∈ s, a.isLeaf sig) :
    convertTermToString sig u = some s := by
  cases s with
  | nil => cases h
  | cons a rest =>
    simp only [convertToTerm, Option.map_eq_some'] at h
    obtain ⟨bin, hbin, rfl⟩ := h
    have hb := List.find?_some hbin
    simp only [decide_eq_true_eq] at hb
    exact convertTermToString_foldl hb.1 hb.2 rest _ [a]
      (convertTermToString_toTerm (hs a (.head _))) fun c hc => hs c (.tail _ hc)

/-- The string rewrite of `Strategy::String`: the LHS pattern, instantiated by some bindings, is
the whole string, and the clause pattern instantiated by the same bindings is the result. -/
def PatternRewrites (lhs rhs string string' : List Atom) : Prop :=
  ∃ bindings, substitutePattern lhs bindings = some string ∧
    substitutePattern rhs bindings = some string'

/-- `u` is a string rewrite of `t` by a rule of the TRS: both have a string form, and a rule
with a string form rewrites the one string into the other. -/
def StringRewrites (trs : TRS) (sig : Signature) (t u : Term) : Prop :=
  ∃ string string', convertTermToString sig t = some string ∧
    convertTermToString sig u = some string' ∧ ∃ r ∈ trs.rules, ∃ lhs rhss,
      convertRuleToStrings sig r = some (lhs, rhss) ∧
        ∃ rhs ∈ rhss, PatternRewrites lhs rhs string string'

/-- The rewrites of one pattern at a break vector that runs from `0` to the string's end without
decreasing, one entry per atom of the pattern and one more. -/
theorem rewritesAt_sound {sig : Signature} {string : List Atom}
    (hstr : ∀ a ∈ string, a.isLeaf sig) {pattern : List Atom × List (List Atom)}
    (hrhs : ∀ r ∈ pattern.2, ∀ a ∈ r, a.isLeaf sig) {breaks : List Nat}
    (hmono : breaks.Pairwise (· ≤ ·)) (hlen : breaks.length = pattern.1.length + 1)
    (h0 : breaks.getD 0 0 = 0) (hn : breaks.getD pattern.1.length 0 = string.length)
    {ts : List Term} (h : rewritesAt sig string pattern breaks = some ts) :
    ∀ u ∈ ts, ∃ rhs ∈ pattern.2, ∃ string', PatternRewrites pattern.1 rhs string string' ∧
      convertTermToString sig u = some string' := by
  unfold rewritesAt at h
  split at h
  · rename_i bindings hm
    have hlhs := (matchPatternFrom_substitute breaks string hmono 0 pattern.1 [] bindings
      (by omega) hm).2
    rw [Nat.zero_add, h0, hn] at hlhs
    have hb := matchPatternFrom_sub breaks string 0 pattern.1 [] bindings (by simp) hm
    intro u hu
    obtain ⟨rhs, hrhs', hu'⟩ := exists_of_mem_mapM h u hu
    split at hu'
    · rename_i string' hsub
      refine ⟨rhs, hrhs', string', ⟨bindings, by simpa [segment] using hlhs, hsub⟩,
        convertTermToString_of_convertToTerm hu' fun a ha => ?_⟩
      rcases substitutePattern_mem rhs bindings string' hsub a ha with ha | ⟨b, hbm, ha⟩
      · exact hrhs rhs hrhs' a ha
      · exact hstr a (hb b hbm a ha)
    · cases hu'
  · cases h
    simp

/-- Every term of `rewrite_as_string` comes from one rule with a string form, one break vector
of `gen_breaks` and one clause. -/
theorem mem_rewriteAsString {trs : TRS} {term : Term} {sig : Signature} {ts : List Term}
    (h : trs.rewriteAsString term sig = some ts) {u : Term} (hu : u ∈ ts) :
    ∃ string, convertTermToString sig term = some string ∧ ∃ r ∈ trs.rules, ∃ pattern,
      convertRuleToStrings sig r = some pattern ∧
        ∃ bs, genBreaks pattern.1 string.length = some bs ∧
          ∃ b ∈ bs, ∃ us, rewritesAt sig string pattern b = some us ∧ u ∈ us := by
  unfold rewriteAsString at h
  split at h
  · cases h
  rename_i string hstring
  obtain ⟨lists, hlists, rfl⟩ := Option.map_eq_some'.mp h
  obtain ⟨l, hl, hul⟩ := List.mem_flatten.mp hu
  obtain ⟨rule, hrule, hl'⟩ := exists_of_mem_mapM hlists l hl
  split at hl'
  · cases hl'
  rename_i pattern hpattern
  split at hl'
  · cases hl'
  rename_i bs hbs
  obtain ⟨per, hper, rfl⟩ := Option.map_eq_some'.mp hl'
  obtain ⟨l', hl'', hul'⟩ := List.mem_flatten.mp hul
  obtain ⟨b, hb, hb'⟩ := exists_of_mem_mapM hper l' hl''
  exact ⟨string, hstring, rule, hrule, pattern, hpattern, bs, hbs, b, hb, l', hb', hul'⟩

/-- Every term of `rewrite_as_string` is a string rewrite of the term by one of the rules, when
every rule's LHS is well formed: the string of the result is a clause pattern instantiated by
bindings under which the LHS pattern is the whole string of the term. -/
theorem rewriteAsString_sound {trs : TRS} {term : Term} {sig : Signature} {ts : List Term}
    (hr : ∀ r ∈ trs.rules, r.lhs.wellFormed sig) (h : trs.rewriteAsString term sig = some ts) :
    ∀ u ∈ ts, trs.StringRewrites sig term u := by
  intro u hu
  obtain ⟨string, hstring, r, hr', ⟨lhs, rhss⟩, hpat, bs, hbs, b, hb, us, hus, hu'⟩ :=
    mem_rewriteAsString h hu
  obtain ⟨hl, hrs⟩ := convertRuleToStrings_eq_some hpat
  have hne := List.length_pos.mpr (convertTermToString_ne_nil _ (hr r hr') _ hl)
  simp only [genBreaks, Option.some.injEq] at hbs
  subst hbs
  obtain ⟨x, hx, rfl⟩ := List.mem_map.mp (List.mem_filter.mp hb).1
  obtain ⟨hlen, hmono, -, -⟩ := breaks_of_mem_combinations hx
  have hxl : x.length = lhs.length - 1 := by simpa using hlen
  have hn : (0 :: x ++ [string.length]).getD lhs.length 0 = string.length := by
    rw [show lhs.length = x.length + 1 by omega]
    simp
  have hrhs : ∀ c ∈ rhss, ∀ a ∈ c, a.isLeaf sig := fun c hc => by
    obtain ⟨t, -, ht⟩ := exists_of_mem_mapM hrs c hc
    exact convertTermToString_isLeaf sig t c ht
  obtain ⟨rhs, hrhs', string', hp, hu''⟩ := rewritesAt_sound (convertTermToString_isLeaf sig term
    string hstring) hrhs hmono (by simp at hlen ⊢; omega) rfl hn hus u hu'
  exact ⟨string, string', hstring, hu'', r, hr', lhs, rhss, hpat, rhs, hrhs', hp⟩

/-- Every term `TRS::rewrite` yields under `Strategy::String` is a string rewrite of the term by
one of the rules, when every rule's LHS is well formed. -/
theorem rewrite_string_sound (trs : TRS) (t : Term) (sig : Signature)
    (hr : ∀ r ∈ trs.rules, r.lhs.wellFormed sig) :
    ∀ u ∈ (trs.rewrite t .string sig).getD [], trs.StringRewrites sig t u := by
  intro u hu
  simp only [rewrite, Option.getD_some] at hu
  cases h : trs.rewriteAsString t sig with
  | none => simp [h] at hu
  | some ts => exact rewriteAsString_sound hr h u (by simpa [h] using hu)

/-- `.(x_, A) = x_` rewrites the string `B A` to `B`. -/
theorem rewrite_string_sound_example :
    (∀ r ∈ (TRS.mk false [stringRule]).rules, r.lhs.wellFormed exampleSig) ∧
      (TRS.mk false [stringRule]).rewrite
        (.application ⟨0⟩ [.application ⟨2⟩ [], .application ⟨1⟩ []]) .string exampleSig =
        some [.application ⟨2⟩ []] ∧
      ∀ u ∈ [Term.application ⟨2⟩ []], (TRS.mk false [stringRule]).StringRewrites exampleSig
        (.application ⟨0⟩ [.application ⟨2⟩ [], .application ⟨1⟩ []]) u :=
  have hr : ∀ r ∈ (TRS.mk false [stringRule]).rules, r.lhs.wellFormed exampleSig := by decide
  have h : (TRS.mk false [stringRule]).rewrite
      (.application ⟨0⟩ [.application ⟨2⟩ [], .application ⟨1⟩ []]) .string exampleSig =
      some [.application ⟨2⟩ []] := by decide
  ⟨hr, h, by
    simpa only [h, Option.getD_some] using rewrite_string_sound _
      (.application ⟨0⟩ [.application ⟨2⟩ [], .application ⟨1⟩ []]) _ hr⟩

/-! ### Completeness -/

/-- The length of an atom's image under `substitute_pattern`. -/
def segLen (bindings : List (Variable × List Atom)) : Atom → Nat
  | .variable v => ((bindings.lookup v).getD []).length
  | .operator _ => 1

theorem length_substitutePattern (bindings : List (Variable × List Atom)) :
    ∀ (pattern s : List Atom), substitutePattern pattern bindings = some s →
      s.length = (pattern.map (segLen bindings)).sum
  | [], s, h => by cases h; rfl
  | .variable v :: pattern, s, h => by
    simp only [substitutePattern] at h
    split at h
    · rename_i m rest hm hrest
      cases h
      simp [segLen, hm, length_substitutePattern bindings pattern rest hrest]
    · cases h
  | .operator o :: pattern, s, h => by
    simp only [substitutePattern, Option.map_eq_some'] at h
    obtain ⟨rest, hrest, rfl⟩ := h
    simp [segLen, length_substitutePattern bindings pattern rest hrest, Nat.add_comm]

/-- `substitute_pattern` reads only the bindings of the pattern's variables: more bindings give
the same string. -/
theorem substitutePattern_mono {b₁ b₂ : List (Variable × List Atom)}
    (hb : ∀ v m, b₁.lookup v = some m → b₂.lookup v = some m) :
    ∀ (pattern s : List Atom), substitutePattern pattern b₁ = some s →
      substitutePattern pattern b₂ = some s
  | [], s, h => h
  | .variable v :: pattern, s, h => by
    simp only [substitutePattern] at h
    split at h
    · rename_i m rest hm hrest
      cases h
      simp [substitutePattern, hb v m hm, substitutePattern_mono hb pattern rest hrest]
    · cases h
  | .operator o :: pattern, s, h => by
    simp only [substitutePattern, Option.map_eq_some'] at h
    obtain ⟨rest, hrest, rfl⟩ := h
    simp [substitutePattern, substitutePattern_mono hb pattern rest hrest]

theorem take_drop_append {α : Type} {l a b : List α} {o : Nat}
    (h : (l.drop o).take (a ++ b).length = a ++ b) :
    (l.drop o).take a.length = a ∧ (l.drop (o + a.length)).take b.length = b := by
  constructor
  · have := congrArg (List.take a.length) h
    rwa [List.take_take, min_eq_left (by simp), List.take_left' rfl] at this
  · have := congrArg (List.drop a.length) h
    rwa [List.drop_take, List.drop_drop, List.length_append, Nat.add_sub_cancel_left,
      List.drop_left' rfl] at this

/-- On break points that cut the string into the images of the pattern's atoms under
`bindings`, the match from position `i` succeeds, and every binding it makes is one of
`bindings`. -/
theorem matchPatternFrom_complete (breaks : List Nat) (string : List Atom)
    (bindings : List (Variable × List Atom)) :
    ∀ (pattern : List Atom) (i o : Nat) (b₀ : List (Variable × List Atom)) (s : List Atom),
      substitutePattern pattern bindings = some s → (string.drop o).take s.length = s →
      (∀ j ≤ pattern.length,
        breaks.getD (i + j) 0 = o + ((pattern.take j).map (segLen bindings)).sum) →
      (∀ v m, b₀.lookup v = some m → bindings.lookup v = some m) →
      ∃ res, matchPatternFrom breaks string i pattern b₀ = some res ∧
        ∀ v m, res.lookup v = some m → bindings.lookup v = some m
  | [], _, _, b₀, _, _, _, _, hb => ⟨b₀, rfl, hb⟩
  | atom :: pattern, i, o, b₀, s, hs, hstr, hbr, hb => by
    -- the image of `atom`, and the breaks around it and after it
    obtain ⟨img, rest, hrest, rfl, himg⟩ : ∃ img rest, substitutePattern pattern bindings = some rest ∧
        s = img ++ rest ∧ segLen bindings atom = img.length ∧
          (∀ v, atom = .variable v → bindings.lookup v = some img) ∧
          (∀ o, atom = .operator o → img = [atom]) := by
      cases atom with
      | «variable» v =>
        simp only [substitutePattern] at hs
        split at hs
        · rename_i m rest hm hrest
          cases hs
          exact ⟨m, rest, hrest, rfl, by simp [segLen, hm], fun _ h => by cases h; exact hm,
            fun _ h => nomatch h⟩
        · cases hs
      | operator o =>
        simp only [substitutePattern, Option.map_eq_some'] at hs
        obtain ⟨rest, hrest, rfl⟩ := hs
        exact ⟨[.operator o], rest, hrest, rfl, rfl, (fun _ h => nomatch h), fun _ _ => rfl⟩
    obtain ⟨hlen, hvar, hop⟩ := himg
    obtain ⟨hseg, hstr'⟩ := take_drop_append hstr
    have hbi : breaks.getD i 0 = o := by simpa using hbr 0 (Nat.zero_le _)
    have hbi' : breaks.getD (i + 1) 0 = o + img.length := by simpa [hlen] using hbr 1 (by simp)
    replace hseg : segment string (breaks.getD i 0) (breaks.getD (i + 1) 0) = img := by
      rw [segment, hbi, hbi', Nat.add_sub_cancel_left, hseg]
    have hbr' : ∀ j ≤ pattern.length, breaks.getD (i + 1 + j) 0 =
        o + img.length + ((pattern.take j).map (segLen bindings)).sum := fun j hj => by
      rw [show i + 1 + j = i + (j + 1) by omega, hbr (j + 1) (by simp; omega), List.take_succ_cons,
        List.map_cons, List.sum_cons, hlen, Nat.add_assoc]
    have ih := fun b₀ hb => matchPatternFrom_complete breaks string bindings pattern (i + 1)
      (o + img.length) b₀ rest hrest hstr' hbr' hb
    unfold matchPatternFrom
    dsimp only
    rw [hseg]
    cases atom with
    | «variable» v =>
      have hv := hvar v rfl
      cases h0 : b₀.lookup v with
      | some m =>
        obtain rfl : m = img := Option.some.inj ((hb v m h0).symm.trans hv)
        simp only [h0, ne_eq, not_true_eq_false, if_false]
        exact ih b₀ hb
      | none =>
        dsimp only
        rw [h0]
        refine ih _ fun w m hw => ?_
        by_cases hwv : w = v
        · subst hwv
          rw [List.lookup_cons_self] at hw
          exact hw ▸ hv
        · exact hb w m (by simpa [List.lookup_cons, beq_false_of_ne hwv] using hw)
    | operator op =>
      rw [hop op rfl, if_neg Ne.irrefl]
      exact ih b₀ hb

theorem mem_combinations_of_sublist {α : Type} : ∀ {k : Nat} {l x : List α}, x.Sublist l →
    x.length = k → x ∈ combinations k l
  | 0, _, x, _, hl => by simp [combinations, List.length_eq_zero.mp hl]
  | _ + 1, [], _, hs, hl => by simp [List.eq_nil_of_sublist_nil hs] at hl
  | k + 1, a :: as, x, hs, hl => by
    simp only [combinations, List.mem_append, List.mem_map]
    cases hs with
    | cons _ h => exact .inr (mem_combinations_of_sublist h hl)
    | cons₂ _ h => exact .inl ⟨_, mem_combinations_of_sublist h (by simpa using hl), rfl⟩

section Breaks

variable {lhs string : List Atom} {bindings : List (Variable × List Atom)}

/-- Where the image of the atom at `j` starts: the length of the images before it. -/
theorem pos_succ {j : Nat} {a : Atom} (h : lhs[j]? = some a) :
    ((lhs.take (j + 1)).map (segLen bindings)).sum =
      ((lhs.take j).map (segLen bindings)).sum + segLen bindings a := by
  rw [List.take_succ, h, List.map_append, List.sum_append]
  simp

theorem pos_mono {j j' : Nat} (h : j ≤ j') :
    ((lhs.take j).map (segLen bindings)).sum ≤ ((lhs.take j').map (segLen bindings)).sum :=
  (((List.take_prefix_take_left lhs h).map _).sublist).sum_le_sum fun _ _ => Nat.zero_le _

theorem lookup_isSome_of_substitutePattern : ∀ {pattern s : List Atom},
    substitutePattern pattern bindings = some s → ∀ v, .variable v ∈ pattern →
      (bindings.lookup v).isSome
  | [], _, _, _, hv => by cases hv
  | .variable w :: pattern, s, h, v, hv => by
    simp only [substitutePattern] at h
    split at h
    · rename_i m rest hm hrest
      rcases List.mem_cons.mp hv with hv | hv
      · cases hv
        simp [hm]
      · exact lookup_isSome_of_substitutePattern hrest v hv
    · cases h
  | .operator o :: pattern, s, h, v, hv => by
    simp only [substitutePattern, Option.map_eq_some'] at h
    obtain ⟨rest, hrest, rfl⟩ := h
    rcases List.mem_cons.mp hv with hv | hv
    · cases hv
    · exact lookup_isSome_of_substitutePattern hrest v hv

/-- A whole-string instance of a non-empty pattern whose interior atoms have non-empty images
has its break points among those `gen_breaks` emits: `0`, the ends of the images of all atoms
but the last, and the string's length. -/
theorem exists_breaks (hne : lhs ≠ []) (hl : substitutePattern lhs bindings = some string)
    (hint : ∀ i v, 0 < i → i + 1 < lhs.length → lhs[i]? = some (.variable v) →
      bindings.lookup v ≠ some []) :
    ∃ b ∈ ((combinations (lhs.length - 1) (List.range (string.length + 1))).map
        fun x => 0 :: x ++ [string.length]).filter (validOption lhs),
      ∀ j ≤ lhs.length, b.getD j 0 = ((lhs.take j).map (segLen bindings)).sum := by
  have hL := List.length_pos.mpr hne
  have hn : ((lhs.take lhs.length).map (segLen bindings)).sum = string.length := by
    rw [List.take_of_length_le le_rfl, length_substitutePattern _ _ _ hl]
  -- the image of every interior atom is non-empty
  have hlt : ∀ j j', 0 < j → j < j' → j' < lhs.length →
      ((lhs.take j).map (segLen bindings)).sum < ((lhs.take j').map (segLen bindings)).sum := by
    intro j j' hj hjj' hj'
    obtain ⟨a, ha⟩ : ∃ a, lhs[j]? = some a := ⟨_, List.getElem?_eq_getElem (by omega)⟩
    have hseg : 0 < segLen bindings a := by
      cases a with
      | «variable» v =>
        obtain ⟨m, hm⟩ := Option.isSome_iff_exists.mp
          (lookup_isSome_of_substitutePattern hl v (List.getElem?_mem ha))
        have hm' : m ≠ [] := fun h => hint j v hj (by omega) ha (h ▸ hm)
        simpa [segLen, hm] using List.length_pos.mpr hm'
      | operator o => exact Nat.one_pos
    calc ((lhs.take j).map (segLen bindings)).sum
        < ((lhs.take j).map (segLen bindings)).sum + segLen bindings a := by omega
      _ = ((lhs.take (j + 1)).map (segLen bindings)).sum := (pos_succ ha).symm
      _ ≤ ((lhs.take j').map (segLen bindings)).sum := pos_mono hjj'
  have hget : ∀ j ≤ lhs.length, (0 :: (List.range' 1 (lhs.length - 1)).map
      (fun j => ((lhs.take j).map (segLen bindings)).sum) ++ [string.length]).getD j 0 =
        ((lhs.take j).map (segLen bindings)).sum := by
    intro j hj
    rcases j with _ | k
    · rfl
    rw [List.cons_append, List.getD_cons_succ]
    rcases Nat.lt_or_ge k (lhs.length - 1) with hk | hk
    · rw [List.getD_append _ _ _ _ (by simpa using hk), List.getD_eq_getElem?_getD,
        List.getElem?_map, List.getElem?_range' _ _ hk]
      simp [Nat.add_comm]
    · rw [List.getD_append_right _ _ _ _ (by simpa using hk), List.length_map,
        List.length_range', show k - (lhs.length - 1) = 0 by omega, show k + 1 = lhs.length by omega,
        hn]
      rfl
  refine ⟨_, List.mem_filter.mpr ⟨List.mem_map.mpr ⟨_, mem_combinations_of_sublist ?_ (by simp),
    rfl⟩, ?_⟩, hget⟩
  · have hsorted : ((List.range' 1 (lhs.length - 1)).map
        (fun j => ((lhs.take j).map (segLen bindings)).sum)).Pairwise (· < ·) :=
      List.pairwise_map.mpr ((List.pairwise_lt_range' 1 (lhs.length - 1)).imp_of_mem
        fun ha hb hab => hlt _ _ (List.mem_range'_1.mp ha).1 hab (by have := List.mem_range'_1.mp hb; omega))
    refine List.sublist_of_subperm_of_sorted (List.Nodup.subperm (hsorted.imp ne_of_lt) ?_) hsorted
      (List.pairwise_lt_range _)
    intro y hy
    obtain ⟨j, hj, rfl⟩ := List.mem_map.mp hy
    have := List.mem_range'_1.mp hj
    exact List.mem_range.mpr (Nat.lt_succ_of_le (hn ▸ pos_mono (by omega)))
  · refine List.all_eq_true.mpr fun p hp => ?_
    have hp' := List.mem_enum_iff_getElem?.mp hp
    have hlt := (List.getElem?_eq_some_iff.mp hp').1
    split
    · rename_i o ho
      rw [hget _ (by omega), hget _ hlt.le, pos_succ hp', ho]
      simp [segLen]
    · rfl

end Breaks

theorem exists_of_mapM_of_mem {α β : Type} {f : α → Option β} :
    ∀ {l : List α} {ys : List β}, l.mapM f = some ys → ∀ x ∈ l, ∃ y ∈ ys, f x = some y
  | [], _, _, _, hx => by cases hx
  | a :: l, ys, h, x, hx => by
    rw [List.mapM_cons] at h
    obtain ⟨b, hb, h⟩ := Option.bind_eq_some.mp h
    obtain ⟨bs, hbs, h⟩ := Option.bind_eq_some.mp h
    cases h
    rcases List.mem_cons.mp hx with rfl | hx
    · exact ⟨b, .head _, hb⟩
    · obtain ⟨y, hy, hfy⟩ := exists_of_mapM_of_mem hbs x hx
      exact ⟨y, .tail _ hy, hfy⟩

/-- `Strategy::String` misses no whole-string instance whose interior segments are non-empty:
when `rewrite_as_string` does not give up, every clause of a rule with a well-formed LHS,
instantiated by bindings under which the LHS pattern is the whole string of the term, is among
its rewrites. -/
theorem rewriteAsString_complete {trs : TRS} {term : Term} {sig : Signature} {ts : List Term}
    (h : trs.rewriteAsString term sig = some ts) {string : List Atom}
    (hs : convertTermToString sig term = some string) {r : Rule} (hr : r ∈ trs.rules)
    (hw : r.lhs.wellFormed sig) {lhs : List Atom} {rhss : List (List Atom)}
    (hc : convertRuleToStrings sig r = some (lhs, rhss)) {bindings : List (Variable × List Atom)}
    (hl : substitutePattern lhs bindings = some string)
    (hint : ∀ i v, 0 < i → i + 1 < lhs.length → lhs[i]? = some (.variable v) →
      bindings.lookup v ≠ some [])
    {rhs string' : List Atom} (hrhs : rhs ∈ rhss)
    (hr' : substitutePattern rhs bindings = some string') :
    ∃ u ∈ ts, convertToTerm sig string' = some u := by
  unfold rewriteAsString at h
  rw [hs] at h
  obtain ⟨lists, hlists, rfl⟩ := Option.map_eq_some'.mp h
  obtain ⟨l, hl', hrl⟩ := exists_of_mapM_of_mem hlists r hr
  simp only [hc, genBreaks] at hrl
  obtain ⟨per, hper, rfl⟩ := Option.map_eq_some'.mp hrl
  obtain ⟨b, hb, hbpos⟩ := exists_breaks
    (convertTermToString_ne_nil _ hw _ (convertRuleToStrings_eq_some hc).1) hl hint
  obtain ⟨us, hus, hb'⟩ := exists_of_mapM_of_mem hper b hb
  obtain ⟨res, hres, hagree⟩ := matchPatternFrom_complete b string bindings lhs 0 0 [] string hl
    (by simp) (by simpa using hbpos) (by simp)
  simp only [rewritesAt, matchPattern, hres] at hb'
  obtain ⟨u, hu, hu'⟩ := exists_of_mapM_of_mem hb' rhs hrhs
  split at hu'
  · rename_i s hsub
    obtain rfl : s = string' := Option.some.inj ((substitutePattern_mono hagree rhs s hsub).symm.trans hr')
    exact ⟨u, List.mem_flatten.mpr ⟨_, hl', List.mem_flatten.mpr ⟨us, hus, hu⟩⟩, hu'⟩
  · cases hu'

theorem rewriteAsString_complete_example :
    (TRS.mk false [stringRule]).rewriteAsString
        (.application ⟨0⟩ [.application ⟨2⟩ [], .application ⟨1⟩ []]) exampleSig =
        some [.application ⟨2⟩ []] ∧
      convertTermToString exampleSig (.application ⟨0⟩ [.application ⟨2⟩ [], .application ⟨1⟩ []]) =
        some [.operator ⟨2⟩, .operator ⟨1⟩] ∧
      stringRule ∈ (TRS.mk false [stringRule]).rules ∧ stringRule.lhs.wellFormed exampleSig ∧
      convertRuleToStrings exampleSig stringRule =
        some ([.variable ⟨0⟩, .operator ⟨1⟩], [[.variable ⟨0⟩]]) ∧
      substitutePattern [.variable ⟨0⟩, .operator ⟨1⟩] [(⟨0⟩, [.operator ⟨2⟩])] =
        some [.operator ⟨2⟩, .operator ⟨1⟩] ∧
      (∀ i v, 0 < i → i + 1 < [Atom.variable ⟨0⟩, .operator ⟨1⟩].length →
        [Atom.variable ⟨0⟩, .operator ⟨1⟩][i]? = some (.variable v) →
        [((⟨0⟩ : Variable), [Atom.operator ⟨2⟩])].lookup v ≠ some []) ∧
      [Atom.variable ⟨0⟩] ∈ [[Atom.variable ⟨0⟩]] ∧
      substitutePattern [.variable ⟨0⟩] [(⟨0⟩, [.operator ⟨2⟩])] = some [.operator ⟨2⟩] ∧
      ∃ u ∈ [Term.application ⟨2⟩ []], convertToTerm exampleSig [.operator ⟨2⟩] = some u :=
  have h : (TRS.mk false [stringRule]).rewriteAsString
      (.application ⟨0⟩ [.application ⟨2⟩ [], .application ⟨1⟩ []]) exampleSig =
      some [.application ⟨2⟩ []] := by decide
  have hs : convertTermToString exampleSig
      (.application ⟨0⟩ [.application ⟨2⟩ [], .application ⟨1⟩ []]) =
      some [.operator ⟨2⟩, .operator ⟨1⟩] := by decide
  have hw : stringRule.lhs.wellFormed exampleSig := by decide
  have hc : convertRuleToStrings exampleSig stringRule =
      some ([.variable ⟨0⟩, .operator ⟨1⟩], [[.variable ⟨0⟩]]) := by decide
  have hl : substitutePattern [.variable ⟨0⟩, .operator ⟨1⟩] [(⟨0⟩, [.operator ⟨2⟩])] =
      some [.operator ⟨2⟩, .operator ⟨1⟩] := by decide
  have hint : ∀ i v, 0 < i → i + 1 < [Atom.variable ⟨0⟩, .operator ⟨1⟩].length →
      [Atom.variable ⟨0⟩, .operator ⟨1⟩][i]? = some (.variable v) →
      [((⟨0⟩ : Variable), [Atom.operator ⟨2⟩])].lookup v ≠ some [] := fun i _ h0 h1 _ =>
    absurd h1 (by simp only [List.length_cons, List.length_nil]; omega)
  have hr' : substitutePattern [.variable ⟨0⟩] [(⟨0⟩, [.operator ⟨2⟩])] = some [.operator ⟨2⟩] := by
    decide
  ⟨h, hs, .head _, hw, hc, hl, hint, .head _, hr',
    rewriteAsString_complete h hs (.head _) hw hc hl hint (.head _) hr'⟩

/-! ### Giving up -/

theorem mapM_eq_none_iff {α β : Type} {f : α → Option β} :
    ∀ {l : List α}, l.mapM f = none ↔ ∃ x ∈ l, f x = none
  | [] => by
    rw [List.mapM_nil]
    simp
  | a :: l => by
    simp only [List.mapM_cons, List.mem_cons, exists_eq_or_imp, ← mapM_eq_none_iff]
    cases f a <;> cases l.mapM f <;> simp

/-- A clause of a well-formed valid rule is instantiated by every match of its LHS pattern:
the match binds every variable of the LHS. -/
theorem substitutePattern_isSome_of_match {sig : Signature} {rule : Rule}
    (hw : rule.wellFormed sig) (hv : rule.Valid) {lhs : List Atom} {rhss : List (List Atom)}
    (hc : convertRuleToStrings sig rule = some (lhs, rhss)) {breaks : List Nat}
    {string : List Atom} {res : List (Variable × List Atom)}
    (hm : matchPattern lhs breaks string = some res) {rhs : List Atom} (hrhs : rhs ∈ rhss) :
    (substitutePattern rhs res).isSome := by
  obtain ⟨hl, hrs⟩ := convertRuleToStrings_eq_some hc
  simp only [Rule.wellFormed, Bool.and_eq_true, List.all_eq_true] at hw
  obtain ⟨c, hc, hcr⟩ := exists_of_mem_mapM hrs rhs hrhs
  refine substitutePattern_isSome rhs res fun v hvr => ?_
  have hvc := (mem_convertTermToString sig c (hw.2 c hc) rhs hcr v).mp hvr
  exact matchPatternFrom_lookup breaks string 0 lhs [] res hm v
    (.inr ((mem_convertTermToString sig rule.lhs hw.1 lhs hl v).mpr (hv.rhs_vars c hc v hvc)))

theorem convertToTerm_eq_none_iff {sig : Signature}
    (hdot : ∃ op ∈ sig.operators, op.arity sig = 2 ∧ op.name sig = some ".") {s : List Atom} :
    convertToTerm sig s = none ↔ s = [] := by
  obtain ⟨bin, hb, -⟩ := binOp_eq_some hdot
  cases s <;> simp [convertToTerm, hb]

/-- For a well-formed valid rule, the rewrites at a break vector fail exactly when the match
succeeds and instantiates some clause to the empty string, which has no tree. -/
theorem rewritesAt_eq_none_iff {sig : Signature}
    (hdot : ∃ op ∈ sig.operators, op.arity sig = 2 ∧ op.name sig = some ".") {rule : Rule}
    (hw : rule.wellFormed sig) (hv : rule.Valid) {lhs : List Atom} {rhss : List (List Atom)}
    (hc : convertRuleToStrings sig rule = some (lhs, rhss)) (string : List Atom) (b : List Nat) :
    rewritesAt sig string (lhs, rhss) b = none ↔ ∃ res, matchPattern lhs b string = some res ∧
      ∃ rhs ∈ rhss, substitutePattern rhs res = some [] := by
  unfold rewritesAt
  cases hm : matchPattern lhs b string with
  | none => simp
  | some res =>
    simp only [mapM_eq_none_iff, Option.some.injEq, exists_eq_left']
    refine exists_congr fun rhs => and_congr_right fun hrhs => ?_
    obtain ⟨s, hsub⟩ := Option.isSome_iff_exists.mp
      (substitutePattern_isSome_of_match hw hv hc hm hrhs)
    simp only [hsub, Option.some.injEq]
    exact convertToTerm_eq_none_iff hdot

/-- `Strategy::String` gives up, and yields nothing at all, exactly when some rule matches the
whole string at some break vector of `gen_breaks` and instantiates one of its clauses to the
empty string: rules that are well formed, valid and have string forms, over a signature with a
binary `"."`, fail nowhere else. -/
theorem rewriteAsString_eq_none_iff {trs : TRS} {term : Term} {sig : Signature}
    {string : List Atom} (hdot : ∃ op ∈ sig.operators, op.arity sig = 2 ∧ op.name sig = some ".")
    (hrules : ∀ r ∈ trs.rules, r.wellFormed sig ∧ r.Valid ∧ (convertRuleToStrings sig r).isSome)
    (hs : convertTermToString sig term = some string) :
    trs.rewriteAsString term sig = none ↔ ∃ r ∈ trs.rules, ∃ lhs rhss,
      convertRuleToStrings sig r = some (lhs, rhss) ∧ ∃ bs, genBreaks lhs string.length = some bs ∧
        ∃ b ∈ bs, ∃ res, matchPattern lhs b string = some res ∧
          ∃ rhs ∈ rhss, substitutePattern rhs res = some [] := by
  unfold rewriteAsString
  rw [hs]
  simp only [Option.map_eq_none', mapM_eq_none_iff]
  refine exists_congr fun r => and_congr_right fun hr => ?_
  obtain ⟨hw, hv, hsome⟩ := hrules r hr
  obtain ⟨⟨lhs, rhss⟩, hc⟩ := Option.isSome_iff_exists.mp hsome
  simp only [hc, genBreaks, Option.map_eq_none', mapM_eq_none_iff, Option.some.injEq,
    rewritesAt_eq_none_iff hdot hw hv hc]
  exact ⟨fun h => ⟨lhs, rhss, rfl, _, rfl, h⟩, fun ⟨_, _, he, _, hbs, h⟩ => by
    cases he
    exact hbs ▸ h⟩

/-- `.(x_, A) = x_; A = B`. Against the string `A`, the first rule binds `x_` to the empty
segment before `A`, and its clause to the empty string. -/
def givingUpTRS : TRS := ⟨false, [stringRule, ⟨.application ⟨1⟩ [], [.application ⟨2⟩ []]⟩]⟩

theorem rewriteAsString_eq_none_iff_example :
    (∃ op ∈ exampleSig.operators, op.arity exampleSig = 2 ∧ op.name exampleSig = some ".") ∧
      (∀ r ∈ givingUpTRS.rules, r.wellFormed exampleSig ∧ r.Valid ∧
        (convertRuleToStrings exampleSig r).isSome) ∧
      convertTermToString exampleSig (.application ⟨1⟩ []) = some [.operator ⟨1⟩] ∧
      (givingUpTRS.rewriteAsString (.application ⟨1⟩ []) exampleSig = none ↔
        ∃ r ∈ givingUpTRS.rules, ∃ lhs rhss, convertRuleToStrings exampleSig r = some (lhs, rhss) ∧
          ∃ bs, genBreaks lhs [Atom.operator ⟨1⟩].length = some bs ∧ ∃ b ∈ bs, ∃ res,
            matchPattern lhs b [.operator ⟨1⟩] = some res ∧
              ∃ rhs ∈ rhss, substitutePattern rhs res = some []) :=
  have hdot : ∃ op ∈ exampleSig.operators, op.arity exampleSig = 2 ∧
      op.name exampleSig = some "." := ⟨⟨0⟩, by decide, rfl, rfl⟩
  have hrules : ∀ r ∈ givingUpTRS.rules, r.wellFormed exampleSig ∧ r.Valid ∧
      (convertRuleToStrings exampleSig r).isSome := by decide
  have hs : convertTermToString exampleSig (.application ⟨1⟩ []) = some [.operator ⟨1⟩] := by decide
  ⟨hdot, hrules, hs, rewriteAsString_eq_none_iff hdot hrules hs⟩

/-- `A = B` alone rewrites `A` to `B`; next to `.(x_, A) = x_` that rewrite is lost. -/
example : (TRS.mk false [⟨.application ⟨1⟩ [], [.application ⟨2⟩ []]⟩]).rewriteAsString
      (.application ⟨1⟩ []) exampleSig = some [.application ⟨2⟩ []] ∧
    givingUpTRS.rewriteAsString (.application ⟨1⟩ []) exampleSig = none := by
  decide

end TRS

end TermRewriting
