import TermRewriting.Rewrite.Engine

/-! Rewriting keeps terms well formed, under each of the four strategies. -/
namespace TermRewriting

/-- Both sides of a rule are well formed. -/
def Rule.wellFormed (sig : Signature) (r : Rule) : Bool :=
  r.lhs.wellFormed sig && r.rhs.all (Term.wellFormed sig)

theorem exists_of_mem_mapM {α β : Type} {f : α → Option β} :
    ∀ {l : List α} {us : List β}, l.mapM f = some us → ∀ u ∈ us, ∃ x ∈ l, f x = some u
  | [], us, h, u, hu => by
    simp only [List.mapM_nil, Option.pure_def, Option.some.injEq] at h
    subst h
    simp at hu
  | a :: l, us, h, u, hu => by
    simp only [List.mapM_cons, Option.bind_eq_bind, Option.bind_eq_some, Option.pure_def,
      Option.some.injEq] at h
    obtain ⟨b, hb, bs, hbs, rfl⟩ := h
    rcases List.mem_cons.mp hu with rfl | hu
    · exact ⟨a, .head _, hb⟩
    · obtain ⟨x, hx, hfx⟩ := exists_of_mem_mapM hbs u hu
      exact ⟨x, .tail _ hx, hfx⟩

theorem wellFormed_of_mem_args {sig : Signature} {op : Operator} {args : List Term}
    (h : (Term.application op args).wellFormed sig) : ∀ a ∈ args, a.wellFormed sig := by
  simp only [Term.wellFormed_application, Bool.and_eq_true, List.all_eq_true] at h
  exact h.2

theorem wellFormed_application_iff {sig : Signature} {op : Operator} {args : List Term} :
    (Term.application op args).wellFormed sig ↔
      args.length = op.arity sig ∧ ∀ a ∈ args, a.wellFormed sig := by
  simp

theorem wellFormed_replace_singleton {op : Operator} {args : List Term} {i : Nat} {rw u : Term}
    (ht : (Term.application op args).wellFormed sig) (hw : rw.wellFormed sig)
    (h : (Term.application op args).replace [i] rw = some u) : u.wellFormed sig := by
  rw [Term.replace_singleton] at h
  split at h
  · cases h
    obtain ⟨hl, ha⟩ := wellFormed_application_iff.mp ht
    refine wellFormed_application_iff.mpr ⟨by simpa using hl, fun a hmem => ?_⟩
    rcases List.mem_or_eq_of_mem_set hmem with hmem | rfl
    · exact ha a hmem
    · exact hw
  · cases h

theorem wellFormed_getD {o : Option (List Term)}
    (h : ∀ its, o = some its → ∀ u ∈ its, u.wellFormed sig) : ∀ u ∈ o.getD [], u.wellFormed sig := by
  cases o with
  | none => simp
  | some its => exact h its rfl

namespace TRS

variable {sig : Signature} {trs : TRS} (hr : ∀ r ∈ trs.rules, r.wellFormed sig)
include hr

theorem rewriteHead_wellFormed {term : Term} (ht : term.wellFormed sig) {its : List Term}
    (h : trs.rewriteHead term = some its) : ∀ u ∈ its, u.wellFormed sig := by
  obtain ⟨rule, hrule, hf⟩ := List.exists_of_findSome?_eq_some h
  split at hf
  · rename_i σ hσ
    split at hf
    · cases hf
    · cases hf
      intro u hu
      obtain ⟨c, hc, rfl⟩ := List.mem_map.mp hu
      have hw := hr rule hrule
      simp only [Rule.wellFormed, Bool.and_eq_true, List.all_eq_true] at hw
      exact Term.wellFormed_substitute (Term.pmatch_wellFormed hσ ht) c (hw.2 c hc)
  · cases hf

theorem rewriteEager_wellFormed : ∀ t : Term, t.wellFormed sig →
    ∀ u ∈ trs.rewriteEager t, u.wellFormed sig := by
  refine rewriteEager.induct trs _
    (fun op done rest => (done ++ rest).length = op.arity sig →
      (∀ a ∈ done ++ rest, a.wellFormed sig) →
      ∀ its, rewriteArgsFrom trs op done rest = some its → ∀ u ∈ its, u.wellFormed sig)
    (fun v ht u hu => ?_) (fun op args ih ht u hu => ?_) (fun _ _ _ _ its h => by
      simp [rewriteArgsFrom] at h) (fun op done arg rest hnil _ ih hl ha its h => ?_)
    (fun op done arg rest hne ih hl ha its h => ?_)
  · exact wellFormed_getD (fun _ => rewriteHead_wellFormed hr ht) u hu
  · obtain ⟨hl, ha⟩ := wellFormed_application_iff.mp ht
    simp only [rewriteEager] at hu
    cases h : rewriteArgsFrom trs op [] args with
    | some its => exact ih (by simpa using hl) (by simpa using ha) its h u (by simpa [h] using hu)
    | none => exact wellFormed_getD (fun _ => rewriteHead_wellFormed hr ht) u (by simpa [h] using hu)
  · rw [rewriteArgsFrom, hnil] at h
    exact ih (by simpa using hl) (by simpa using ha) its h
  · simp only [rewriteArgsFrom] at h
    cases h
    intro u hu
    obtain ⟨x, hx, rfl⟩ := List.mem_map.mp hu
    refine wellFormed_application_iff.mpr ⟨by simpa using hl, fun a hmem => ?_⟩
    rcases List.mem_append.mp hmem with hmem | hmem
    · exact ha a (List.mem_append_left _ hmem)
    rcases List.mem_cons.mp hmem with rfl | hmem
    · exact ih (ha arg (by simp)) a hx
    · exact ha a (by simp [hmem])

theorem rewriteAll_wellFormed : ∀ t : Term, t.wellFormed sig →
    ∀ its, trs.rewriteAll t = some its → ∀ u ∈ its, u.wellFormed sig := by
  refine rewriteAll.induct trs _
    (fun term i rest => term.wellFormed sig → (∀ a ∈ rest, a.wellFormed sig) →
      ∀ u ∈ rewriteAllArgs trs term i rest, u.wellFormed sig)
    (fun _ _ its h => by simp [rewriteAll] at h) (fun op args ih ht its h u hu => ?_)
    (fun _ _ _ _ u hu => by simp [rewriteAllArgs] at hu)
    (fun term i arg rest iha ihr ht ha u hu => ?_)
  · simp only [rewriteAll, Option.some.injEq] at h
    subst h
    rcases List.mem_append.mp hu with hu | hu
    · exact wellFormed_getD (fun _ => rewriteHead_wellFormed hr ht) u hu
    · exact ih ht (wellFormed_of_mem_args ht) u hu
  · simp only [rewriteAllArgs] at hu
    rcases List.mem_append.mp hu with hu | hu
    · obtain ⟨rw, hrw, rfl⟩ := List.mem_map.mp hu
      have hw := wellFormed_getD (iha (ha arg (.head _))) rw hrw
      cases hrep : term.replace [i] rw with
      | none => simpa using ht
      | some v =>
        cases term with
        | «variable» => simp [Term.replace] at hrep
        | application op args => simpa using wellFormed_replace_singleton ht hw hrep
    · exact ihr ht (fun a h => ha a (.tail _ h)) u hu

end TRS

/-- The application a frame searches is well formed. -/
def Frame.wellFormed (sig : Signature) (fr : Frame) : Bool :=
  (Term.application fr.op fr.args).wellFormed sig

/-- What the search of `Normal` found is well formed: its rewrites and the frames it folds
them through. -/
def NormalKind.WellFormed (sig : Signature) : NormalKind → Prop
  | .none => True
  | .head it => ∀ u ∈ it, u.wellFormed sig
  | .subterm stack it => (∀ fr ∈ stack, fr.wellFormed sig) ∧ ∀ u ∈ it, u.wellFormed sig

theorem Frame.wellFormed_embed {sig : Signature} {fr : Frame} (hfr : fr.wellFormed sig)
    {s u : Term} (hs : s.wellFormed sig) (h : fr.embed s = some u) : u.wellFormed sig := by
  unfold embed at h
  split at h
  · cases h
    obtain ⟨hl, ha⟩ := wellFormed_application_iff.mp hfr
    refine wellFormed_application_iff.mpr ⟨?_, fun a hmem => ?_⟩
    · simp only [List.length_append, List.length_take, List.length_cons, List.length_drop]
      omega
    · rcases List.mem_append.mp hmem with hmem | hmem
      · exact ha a (List.mem_of_mem_take hmem)
      rcases List.mem_cons.mp hmem with rfl | hmem
      · exact hs
      · exact ha a (List.mem_of_mem_drop hmem)
  · cases h

theorem Frame.wellFormed_foldlM {sig : Signature} : ∀ {stack : List Frame},
    (∀ fr ∈ stack, fr.wellFormed sig) → ∀ {s u : Term}, s.wellFormed sig →
      stack.foldlM (fun s fr => fr.embed s) s = some u → u.wellFormed sig
  | [], _, _, _, hs, h => by cases h; exact hs
  | fr :: stack, hst, s, u, hs, h => by
    simp only [List.foldlM_cons, Option.bind_eq_bind, Option.bind_eq_some] at h
    obtain ⟨s', hs', h⟩ := h
    exact wellFormed_foldlM (fun f hf => hst f (.tail _ hf))
      (wellFormed_embed (hst fr (.head _)) hs hs') h

theorem NormalKind.wellFormed_items {sig : Signature} {k : NormalKind} (hk : k.WellFormed sig)
    {us : List Term} (h : k.items = some us) : ∀ u ∈ us, u.wellFormed sig := by
  cases k with
  | none => cases h; simp
  | head it => cases h; exact hk
  | subterm stack it =>
    intro u hu
    obtain ⟨x, hx, hfx⟩ := exists_of_mem_mapM h u hu
    exact Frame.wellFormed_foldlM hk.1 (hk.2 x hx) hfx

namespace TRS

variable {sig : Signature} {trs : TRS} (hr : ∀ r ∈ trs.rules, r.wellFormed sig)
include hr

theorem search_wellFormed : ∀ stack : List Frame, (∀ fr ∈ stack, fr.wellFormed sig) →
    ∀ k, trs.search stack = some k → k.WellFormed sig := by
  refine search.induct trs _ (fun _ k h => by rw [search_nil] at h; cases h; trivial)
    (fun fr stack h _ k hk => by simp [search_cons, h] at hk)
    (fun fr stack v h ih hst k hk => ?_) (fun fr stack newOp newArgs h it hit hst k hk => ?_)
    (fun fr stack newOp newArgs h hnone ih hst k hk => ?_)
  · rw [search_cons, h] at hk
    exact ih (fun f hf => hst f (.tail _ hf)) k hk
  · rw [search_cons, h] at hk
    simp only [hit, Option.some.injEq] at hk
    subst hk
    have ha := wellFormed_of_mem_args (hst fr (.head _)) _ (List.getElem?_mem h)
    rw [firstRewrites_eq_rewriteHead] at hit
    exact ⟨hst, rewriteHead_wellFormed hr ha hit⟩
  · rw [search_cons, h] at hk
    simp only [hnone] at hk
    have hfr := hst fr (.head _)
    have ha := wellFormed_of_mem_args hfr _ (List.getElem?_mem h)
    refine ih (fun f hf => ?_) k hk
    rcases mem_next_stack hf with ⟨rfl, -⟩ | ⟨rfl, -⟩ | hf
    · exact ha
    · exact hfr
    · exact hst f (.tail _ hf)

theorem normalNew_wellFormed {t : Term} (ht : t.wellFormed sig) {k : NormalKind}
    (h : trs.normalNew t = some k) : k.WellFormed sig := by
  cases t with
  | «variable» => cases h; trivial
  | application op args =>
    simp only [normalNew] at h
    split at h
    · rename_i it hit
      cases h
      rw [firstRewrites_eq_rewriteHead] at hit
      exact rewriteHead_wellFormed hr ht hit
    · exact search_wellFormed hr _ (by simpa [Frame.wellFormed] using ht) k h

end TRS

/-! ### Strings of atoms -/

/-- An atom a string can hold: a variable, or an operator of arity zero. -/
def Atom.isLeaf (sig : Signature) : Atom → Bool
  | .variable _ => true
  | .operator o => o.arity sig == 0

theorem Atom.wellFormed_toTerm {sig : Signature} {a : Atom} (h : a.isLeaf sig) :
    a.toTerm.wellFormed sig := by
  cases a with
  | «variable» => rfl
  | operator o =>
    simp only [isLeaf, beq_iff_eq] at h
    simp [toTerm, h]

theorem mem_of_mem_segment {string : List Atom} {start stop : Nat} {a : Atom}
    (h : a ∈ segment string start stop) : a ∈ string :=
  List.mem_of_mem_drop (List.mem_of_mem_take h)

namespace TRS

theorem convertTermToString_isLeaf (sig : Signature) : ∀ t : Term,
    ∀ s, convertTermToString sig t = some s → ∀ a ∈ s, a.isLeaf sig := by
  refine convertTermToString.induct sig _
    (fun as => ∀ s, convertArgsToString sig as = some s → ∀ a ∈ s, a.isLeaf sig)
    (fun v s h a ha => ?_) (fun op args h0 s h a ha => ?_) (fun op args h0 hdot ih s h => ?_)
    (fun op args h0 hdot s h => ?_) (fun s h a ha => ?_)
    (fun a as s ss hss hs iha ihas s' h => ?_) (fun a as hne _ _ s h => ?_)
  · simp only [convertTermToString, Option.some.injEq] at h
    subst h
    simp at ha
    simp [ha, Atom.isLeaf]
  · simp only [convertTermToString, h0, if_true, Option.some.injEq] at h
    subst h
    simp only [List.mem_singleton] at ha
    simp [ha, Atom.isLeaf, h0]
  · simp only [convertTermToString, h0, hdot, if_false, if_true, and_self] at h
    exact ih s h
  · simp [convertTermToString, h0, hdot] at h
  · simp only [convertArgsToString, Option.some.injEq] at h
    subst h
    simp at ha
  · simp only [convertArgsToString, hs, hss, Option.some.injEq] at h
    subst h
    intro b hb
    rcases List.mem_append.mp hb with hb | hb
    · exact iha s hs b hb
    · exact ihas ss hss b hb
  · simp only [convertArgsToString] at h
    cases h

theorem matchPatternFrom_sub (breaks : List Nat) (string : List Atom) :
    ∀ (i : Nat) (pattern : List Atom) (bindings res : List (Variable × List Atom)),
      (∀ b ∈ bindings, ∀ a ∈ b.2, a ∈ string) →
      matchPatternFrom breaks string i pattern bindings = some res →
      ∀ b ∈ res, ∀ a ∈ b.2, a ∈ string
  | _, [], bindings, res, hb, h => by cases h; exact hb
  | i, atom :: pattern, bindings, res, hb, h => by
    unfold matchPatternFrom at h
    dsimp only at h
    split at h
    · split at h
      · split at h
        · cases h
        · exact matchPatternFrom_sub breaks string _ pattern _ _ hb h
      · refine matchPatternFrom_sub breaks string _ pattern _ _ (fun b hm => ?_) h
        rcases List.mem_cons.mp hm with rfl | hm
        · exact fun a ha => mem_of_mem_segment ha
        · exact hb b hm
    · split at h
      · cases h
      · exact matchPatternFrom_sub breaks string _ pattern _ _ hb h

theorem substitutePattern_mem : ∀ (pattern : List Atom) (bindings : List (Variable × List Atom))
    (s : List Atom), substitutePattern pattern bindings = some s →
      ∀ a ∈ s, a ∈ pattern ∨ ∃ b ∈ bindings, a ∈ b.2
  | [], _, s, h, a, ha => by cases h; simp at ha
  | .variable v :: pattern, bindings, s, h, a, ha => by
    simp only [substitutePattern] at h
    split at h
    · rename_i seg rest hseg hrest
      cases h
      rcases List.mem_append.mp ha with ha | ha
      · obtain ⟨l₁, l₂, hl, -⟩ := List.lookup_eq_some_iff.mp hseg
        exact .inr ⟨(v, seg), by simp [hl], ha⟩
      · rcases substitutePattern_mem pattern bindings rest hrest a ha with ha | ha
        · exact .inl (.tail _ ha)
        · exact .inr ha
    · cases h
  | .operator o :: pattern, bindings, s, h, a, ha => by
    simp only [substitutePattern, Option.map_eq_some'] at h
    obtain ⟨rest, hrest, rfl⟩ := h
    rcases List.mem_cons.mp ha with rfl | ha
    · exact .inl (.head _)
    · rcases substitutePattern_mem pattern bindings rest hrest a ha with ha | ha
      · exact .inl (.tail _ ha)
      · exact .inr ha

theorem foldl_wellFormed {sig : Signature} {bin : Operator} (hbin : bin.arity sig = 2) :
    ∀ (rest : List Atom) (acc : Term), acc.wellFormed sig → (∀ c ∈ rest, c.isLeaf sig) →
      (rest.foldl (fun term c => .application bin [term, c.toTerm]) acc).wellFormed sig
  | [], _, hacc, _ => hacc
  | c :: rest, acc, hacc, hc => by
    refine foldl_wellFormed hbin rest _ ?_ fun c' h => hc c' (.tail _ h)
    simp [hbin, hacc, Atom.wellFormed_toTerm (hc c (.head _))]

theorem convertToTerm_wellFormed {sig : Signature} {s : List Atom} {u : Term}
    (h : convertToTerm sig s = some u) (hs : ∀ a ∈ s, a.isLeaf sig) : u.wellFormed sig := by
  cases s with
  | nil => cases h
  | cons a rest =>
    simp only [convertToTerm, Option.map_eq_some'] at h
    obtain ⟨bin, hbin, rfl⟩ := h
    have harity : bin.arity sig = 2 := by
      have := List.find?_some hbin
      simp only [decide_eq_true_eq] at this
      exact this.1
    exact foldl_wellFormed harity rest _ (Atom.wellFormed_toTerm (hs a (.head _)))
      fun c hc => hs c (.tail _ hc)

theorem rewritesAt_wellFormed {sig : Signature} {string : List Atom}
    (hstr : ∀ a ∈ string, a.isLeaf sig) {pattern : List Atom × List (List Atom)}
    (hrhs : ∀ r ∈ pattern.2, ∀ a ∈ r, a.isLeaf sig) {breaks : List Nat} {ts : List Term}
    (h : rewritesAt sig string pattern breaks = some ts) : ∀ u ∈ ts, u.wellFormed sig := by
  unfold rewritesAt at h
  split at h
  · rename_i bindings hm
    have hb := matchPatternFrom_sub breaks string 0 pattern.1 [] bindings (by simp) hm
    intro u hu
    obtain ⟨rhs, hrhs', hu'⟩ := exists_of_mem_mapM h u hu
    split at hu'
    · rename_i newString hsub
      refine convertToTerm_wellFormed hu' fun a ha => ?_
      rcases substitutePattern_mem rhs bindings newString hsub a ha with ha | ⟨b, hbm, ha⟩
      · exact hrhs rhs hrhs' a ha
      · exact hstr a (hb b hbm a ha)
    · cases hu'
  · cases h
    simp

theorem rewriteAsString_wellFormed {trs : TRS} {term : Term} {sig : Signature} {ts : List Term}
    (h : trs.rewriteAsString term sig = some ts) : ∀ u ∈ ts, u.wellFormed sig := by
  unfold rewriteAsString at h
  split at h
  · cases h
  rename_i string hstring
  have hstr := convertTermToString_isLeaf sig term string hstring
  obtain ⟨lists, hlists, rfl⟩ := Option.map_eq_some'.mp h
  intro u hu
  obtain ⟨l, hl, hul⟩ := List.mem_flatten.mp hu
  obtain ⟨rule, -, hrule⟩ := exists_of_mem_mapM hlists l hl
  split at hrule
  · cases hrule
  rename_i pattern hpattern
  split at hrule
  · cases hrule
  rename_i breaks _
  obtain ⟨per, hper, rfl⟩ := Option.map_eq_some'.mp hrule
  obtain ⟨l', hl', hul'⟩ := List.mem_flatten.mp hul
  obtain ⟨b, -, hb⟩ := exists_of_mem_mapM hper l' hl'
  have hrhs : ∀ r ∈ pattern.2, ∀ a ∈ r, a.isLeaf sig := by
    unfold convertRuleToStrings at hpattern
    split at hpattern
    · rename_i lhs rhs _ hrhs
      cases hpattern
      intro r hr
      obtain ⟨c, -, hc⟩ := exists_of_mem_mapM hrhs r hr
      exact convertTermToString_isLeaf sig c r hc
    · cases hpattern
  exact rewritesAt_wellFormed hstr hrhs hb u hul'

/-- Every term `TRS::rewrite` yields is well formed, under each of the four strategies, when
the rules and the rewritten term are. -/
theorem rewrite_wellFormed (trs : TRS) (sig : Signature) (term : Term) (strategy : Strategy)
    (hr : ∀ r ∈ trs.rules, r.wellFormed sig) (ht : term.wellFormed sig) :
    ∀ ts, trs.rewrite term strategy sig = some ts → ∀ u ∈ ts, u.wellFormed sig := by
  intro ts h
  cases strategy with
  | normal =>
    obtain ⟨k, hk, hits⟩ := Option.bind_eq_some.mp h
    exact NormalKind.wellFormed_items (normalNew_wellFormed hr ht hk) hits
  | eager =>
    cases h
    exact rewriteEager_wellFormed hr term ht
  | all =>
    cases h
    exact wellFormed_getD (rewriteAll_wellFormed hr term ht)
  | string =>
    cases h
    exact wellFormed_getD fun _ => rewriteAsString_wellFormed

theorem rewrite_wellFormed_all_example :
    (TRS.mk false [⟨.application ⟨1⟩ [], [.application ⟨2⟩ []]⟩]).rewrite
      (.application ⟨6⟩ [.variable ⟨0⟩, .application ⟨1⟩ []]) .all exampleSig =
      some [.application ⟨6⟩ [.variable ⟨0⟩, .application ⟨2⟩ []]] ∧
    (Term.application ⟨6⟩ [.variable ⟨0⟩, .application ⟨2⟩ []]).wellFormed exampleSig :=
  have hrw : (TRS.mk false [⟨.application ⟨1⟩ [], [.application ⟨2⟩ []]⟩]).rewrite
      (.application ⟨6⟩ [.variable ⟨0⟩, .application ⟨1⟩ []]) .all exampleSig =
      some [.application ⟨6⟩ [.variable ⟨0⟩, .application ⟨2⟩ []]] := by decide
  ⟨hrw, rewrite_wellFormed _ exampleSig _ .all (by decide) (by decide) _ hrw _
    (List.mem_singleton_self _)⟩

end TRS

end TermRewriting
