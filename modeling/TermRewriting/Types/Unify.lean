import TermRewriting.Types.Term

/-! Matching and α-equivalence (`Term::pmatch`, `Term::alpha`). Their code is not among the
sources; both follow the spec's Robinson-style procedure, over the argument lists of a single
pair of terms. -/
namespace TermRewriting.Term

mutual
/-- `pmatch` on one pair: a pattern variable binds on its first occurrence and must meet the
same term afterwards; applications compare operators and zip their arguments. -/
def pmatchAux : Term → Term → Subst → Option Subst
  | .variable v, t, σ =>
    match σ.lookup v with
    | some u => if u = t then some σ else none
    | none => some ((v, t) :: σ)
  | .application f as, .application g bs, σ => if f = g then pmatchList as bs σ else none
  | .application _ _, .variable _, _ => none
def pmatchList : List Term → List Term → Subst → Option Subst
  | [], [], σ => some σ
  | a :: as, b :: bs, σ => (pmatchAux a b σ).bind (pmatchList as bs)
  | _, _, _ => none
end

/-- Modelled from the spec: `Term::pmatch(&[(p, t)])`, one-sided unification in which only the
variables of the pattern `p` bind. -/
def pmatch (p t : Term) : Option Subst := pmatchAux p t []

/-- A pattern that is an application never matches a variable. -/
@[simp] theorem pmatch_application_variable (f : Operator) (as : List Term) (v : Variable) :
    pmatch (.application f as) (.variable v) = none := rfl

mutual
theorem pmatchAux_wellFormed {sig : Signature} : ∀ (p t : Term) (σ σ' : Subst),
    pmatchAux p t σ = some σ' → t.wellFormed sig → (∀ b ∈ σ, b.2.wellFormed sig) →
      ∀ b ∈ σ', b.2.wellFormed sig
  | .variable v, t, σ, σ', h, ht, hσ => by
    simp only [pmatchAux] at h
    split at h
    · split at h
      · cases h
        exact hσ
      · cases h
    · cases h
      simpa [ht] using hσ
  | .application f as, .application g bs, σ, σ', h, ht, hσ => by
    simp only [pmatchAux] at h
    split at h
    · simp only [wellFormed_application, Bool.and_eq_true, List.all_eq_true] at ht
      exact pmatchList_wellFormed as bs σ σ' h ht.2 hσ
    · cases h
  | .application _ _, .variable _, _, _, h, _, _ => by simp [pmatchAux] at h
theorem pmatchList_wellFormed {sig : Signature} : ∀ (as bs : List Term) (σ σ' : Subst),
    pmatchList as bs σ = some σ' → (∀ b ∈ bs, b.wellFormed sig) →
      (∀ b ∈ σ, b.2.wellFormed sig) → ∀ b ∈ σ', b.2.wellFormed sig
  | [], [], σ, σ', h, _, hσ => by cases h; exact hσ
  | a :: as, b :: bs, σ, σ', h, hbs, hσ => by
    obtain ⟨σ₁, h₁, h₂⟩ := Option.bind_eq_some.mp h
    exact pmatchList_wellFormed as bs σ₁ σ' h₂ (fun c hc => hbs c (.tail _ hc))
      (pmatchAux_wellFormed a b σ σ₁ h₁ (hbs b (.head _)) hσ)
  | [], _ :: _, _, _, h, _, _ => by simp [pmatchList] at h
  | _ :: _, [], _, _, h, _, _ => by simp [pmatchList] at h
end

/-- Every binding of a match against a well-formed term is well formed. -/
theorem pmatch_wellFormed {sig : Signature} {p t : Term} {σ : Subst} (h : pmatch p t = some σ)
    (ht : t.wellFormed sig) : ∀ b ∈ σ, b.2.wellFormed sig :=
  pmatchAux_wellFormed p t [] σ h ht (by simp)

mutual
/-- `alpha` on one pair: variables pair only with variables, and the pairing `v ↦ w` is
accepted when each earlier pairing maps `v` to `w` or avoids both. -/
def alphaAux : Term → Term → List (Variable × Variable) → Option (List (Variable × Variable))
  | .variable v, .variable w, m =>
    if m.all fun p => (p.1 == v) == (p.2 == w) then some ((v, w) :: m) else none
  | .application f as, .application g bs, m => if f = g then alphaList as bs m else none
  | .variable _, .application _ _, _ => none
  | .application _ _, .variable _, _ => none
def alphaList : List Term → List Term → List (Variable × Variable) →
    Option (List (Variable × Variable))
  | [], [], m => some m
  | a :: as, b :: bs, m => (alphaAux a b m).bind (alphaList as bs)
  | _, _, _ => none
end

/-- Modelled from the spec: `Term::alpha(&[(s, t)])`, α-equivalence as an injective and
consistent renaming of the variables of `s` to those of `t`, returned as a substitution. -/
def alpha (s t : Term) : Option Subst :=
  (alphaAux s t []).map (List.map fun p => (p.1, .variable p.2))

mutual
theorem alphaAux_swap : ∀ (s t : Term) (m : List (Variable × Variable)),
    alphaAux t s (m.map Prod.swap) = (alphaAux s t m).map (List.map Prod.swap)
  | .variable v, .variable w, m => by
    have hall : ((m.map Prod.swap).all fun p => (p.1 == w) == (p.2 == v)) =
        m.all fun p => (p.1 == v) == (p.2 == w) := by
      simp only [List.all_map, Function.comp_def, Prod.fst_swap, Prod.snd_swap, Bool.beq_comm]
    simp only [alphaAux, hall]
    split <;> rfl
  | .application f as, .application g bs, m => by
    simp only [alphaAux, eq_comm (a := g)]
    split
    · exact alphaList_swap as bs m
    · rfl
  | .variable _, .application _ _, _ => rfl
  | .application _ _, .variable _, _ => rfl
theorem alphaList_swap : ∀ (as bs : List Term) (m : List (Variable × Variable)),
    alphaList bs as (m.map Prod.swap) = (alphaList as bs m).map (List.map Prod.swap)
  | [], [], _ => rfl
  | a :: as, b :: bs, m => by
    simp only [alphaList, alphaAux_swap a b m]
    cases alphaAux a b m with
    | none => rfl
    | some m' => exact alphaList_swap as bs m'
  | [], _ :: _, _ => rfl
  | _ :: _, [], _ => rfl
end

/-- α-equivalence is symmetric: `alpha s t` succeeds exactly when `alpha t s` does. -/
theorem alpha_isSome_comm (s t : Term) : (alpha s t).isSome = (alpha t s).isSome := by
  have h := alphaAux_swap s t []
  simp only [List.map_nil] at h
  simp [alpha, h]

/-! ### α-equivalence is an equivalence -/

mutual
theorem alphaAux_self : ∀ (t : Term) (m : List (Variable × Variable)), (∀ p ∈ m, p.1 = p.2) →
    ∃ m', alphaAux t t m = some m' ∧ ∀ p ∈ m', p.1 = p.2
  | .variable v, m, hm => by
    have hall : (m.all fun p => (p.1 == v) == (p.2 == v)) = true :=
      List.all_eq_true.mpr fun p hp => by rw [hm p hp]; exact beq_self_eq_true _
    refine ⟨(v, v) :: m, by rw [alphaAux, if_pos hall], ?_⟩
    rintro p (_ | ⟨_, hp⟩)
    · rfl
    · exact hm p hp
  | .application f as, m, hm => by
    rw [alphaAux, if_pos rfl]
    exact alphaList_self as m hm
theorem alphaList_self : ∀ (ts : List Term) (m : List (Variable × Variable)),
    (∀ p ∈ m, p.1 = p.2) → ∃ m', alphaList ts ts m = some m' ∧ ∀ p ∈ m', p.1 = p.2
  | [], m, hm => ⟨m, rfl, hm⟩
  | t :: ts, m, hm => by
    obtain ⟨m₁, h₁, hm₁⟩ := alphaAux_self t m hm
    rw [alphaList, h₁, Option.some_bind]
    exact alphaList_self ts m₁ hm₁
end

/-- Every term is α-equivalent to itself, by a renaming that maps each variable to itself. -/
theorem alpha_self (t : Term) : ∃ σ, alpha t t = some σ ∧ ∀ p ∈ σ, p.2 = .variable p.1 := by
  obtain ⟨m, h, hm⟩ := alphaAux_self t [] (by simp)
  refine ⟨_, by rw [alpha, h]; rfl, ?_⟩
  simp only [List.mem_map]
  rintro _ ⟨p, hp, rfl⟩
  rw [hm p hp]

theorem alpha_isSome_self (t : Term) : (alpha t t).isSome := by
  obtain ⟨σ, h, -⟩ := alpha_self t
  simp [h]

/-- The pairings of two renamings, composed position by position. -/
private theorem all_compose {v x w : Variable} : ∀ (m₁ m₂ : List (Variable × Variable)),
    m₁.map Prod.snd = m₂.map Prod.fst →
    (m₁.all fun p => (p.1 == v) == (p.2 == x)) = true →
    (m₂.all fun p => (p.1 == x) == (p.2 == w)) = true →
    ((List.zipWith (fun p q => (p.1, q.2)) m₁ m₂).all fun p => (p.1 == v) == (p.2 == w)) = true
  | [], _, _, _, _ => rfl
  | _ :: _, [], h, _, _ => by simp at h
  | p :: m₁, q :: m₂, h, h₁, h₂ => by
    simp only [List.map_cons, List.cons.injEq] at h
    simp only [List.all_cons, Bool.and_eq_true, beq_iff_eq, List.zipWith_cons_cons] at h₁ h₂ ⊢
    rw [h.1] at h₁
    exact ⟨h₁.1.trans h₂.1, all_compose m₁ m₂ h.2 h₁.2 h₂.2⟩

mutual
theorem alphaAux_trans : ∀ (s t u : Term) (m₁ m₂ m₁' m₂' : List (Variable × Variable)),
    m₁.map Prod.snd = m₂.map Prod.fst → alphaAux s t m₁ = some m₁' → alphaAux t u m₂ = some m₂' →
    alphaAux s u (List.zipWith (fun p q => (p.1, q.2)) m₁ m₂) =
      some (List.zipWith (fun p q => (p.1, q.2)) m₁' m₂') ∧ m₁'.map Prod.snd = m₂'.map Prod.fst
  | .variable v, .variable x, .variable w, m₁, m₂, m₁', m₂', hm, h₁, h₂ => by
    simp only [alphaAux] at h₁ h₂ ⊢
    split_ifs at h₁ h₂ with c₁ c₂
    cases h₁
    cases h₂
    rw [if_pos (all_compose m₁ m₂ hm c₁ c₂)]
    exact ⟨rfl, by simp [hm]⟩
  | .application f as, .application g bs, .application h cs, m₁, m₂, m₁', m₂', hm, h₁, h₂ => by
    simp only [alphaAux] at h₁ h₂ ⊢
    split_ifs at h₁ h₂ with c₁ c₂
    subst c₁ c₂
    rw [if_pos rfl]
    exact alphaList_trans as bs cs m₁ m₂ m₁' m₂' hm h₁ h₂
  | .variable _, .application _ _, _, _, _, _, _, _, h₁, _ => by simp [alphaAux] at h₁
  | .application _ _, .variable _, _, _, _, _, _, _, h₁, _ => by simp [alphaAux] at h₁
  | .variable _, .variable _, .application _ _, _, _, _, _, _, _, h₂ => by simp [alphaAux] at h₂
  | .application _ _, .application _ _, .variable _, _, _, _, _, _, _, h₂ => by
    simp [alphaAux] at h₂
theorem alphaList_trans : ∀ (as bs cs : List Term) (m₁ m₂ m₁' m₂' : List (Variable × Variable)),
    m₁.map Prod.snd = m₂.map Prod.fst → alphaList as bs m₁ = some m₁' →
    alphaList bs cs m₂ = some m₂' →
    alphaList as cs (List.zipWith (fun p q => (p.1, q.2)) m₁ m₂) =
      some (List.zipWith (fun p q => (p.1, q.2)) m₁' m₂') ∧ m₁'.map Prod.snd = m₂'.map Prod.fst
  | [], [], [], m₁, m₂, m₁', m₂', hm, h₁, h₂ => by
    simp only [alphaList, Option.some.injEq] at h₁ h₂
    subst h₁ h₂
    exact ⟨rfl, hm⟩
  | a :: as, b :: bs, c :: cs, m₁, m₂, m₁', m₂', hm, h₁, h₂ => by
    simp only [alphaList] at h₁ h₂ ⊢
    obtain ⟨n₁, hn₁, h₁⟩ := Option.bind_eq_some.mp h₁
    obtain ⟨n₂, hn₂, h₂⟩ := Option.bind_eq_some.mp h₂
    obtain ⟨h, hn⟩ := alphaAux_trans a b c m₁ m₂ n₁ n₂ hm hn₁ hn₂
    rw [h, Option.some_bind]
    exact alphaList_trans as bs cs n₁ n₂ m₁' m₂' hn h₁ h₂
  | [], _ :: _, _, _, _, _, _, _, h₁, _ => by simp [alphaList] at h₁
  | _ :: _, [], _, _, _, _, _, _, h₁, _ => by simp [alphaList] at h₁
  | [], [], _ :: _, _, _, _, _, _, _, h₂ => by simp [alphaList] at h₂
  | _ :: _, _ :: _, [], _, _, _, _, _, _, h₂ => by simp [alphaList] at h₂
end

/-- α-equivalence is transitive: renamings compose. -/
theorem alpha_isSome_trans {s t u : Term} (h₁ : (alpha s t).isSome) (h₂ : (alpha t u).isSome) :
    (alpha s u).isSome := by
  unfold alpha at *
  cases hst : alphaAux s t [] with
  | none => simp [hst] at h₁
  | some m₁ =>
    cases htu : alphaAux t u [] with
    | none => simp [htu] at h₂
    | some m₂ =>
      have h := (alphaAux_trans s t u [] [] m₁ m₂ rfl hst htu).1
      simp only [List.zipWith_nil_left] at h
      simp [h]

/-- Terms α-equivalent to each other are α-equivalent to the same terms. -/
theorem alpha_isSome_congr {s t u : Term} (h : (alpha t u).isSome) :
    (alpha s t).isSome = (alpha s u).isSome := by
  have h' : (alpha u t).isSome := by rw [alpha_isSome_comm]; exact h
  cases hst : (alpha s t).isSome <;> cases hsu : (alpha s u).isSome
  · rfl
  · simp [alpha_isSome_trans hsu h'] at hst
  · simp [alpha_isSome_trans hst h] at hsu
  · rfl

/-- A substitution that maps each of its variables to itself changes nothing. -/
theorem substitute_of_diag {σ : Subst} (hσ : ∀ p ∈ σ, p.2 = .variable p.1) :
    ∀ t : Term, t.substitute σ = t := by
  refine induction (fun v => ?_) (fun op args ih => ?_)
  · cases h : σ.lookup v with
    | none => simp [h]
    | some u =>
      obtain ⟨l₁, l₂, rfl, -⟩ := List.lookup_eq_some_iff.mp h
      simpa [h] using hσ (v, u) (by simp)
  · simp only [substitute_application]
    rw [List.map_congr_left ih, List.map_id']

/-! ### Soundness of matching -/

/-- `τ` keeps every binding of `σ`. -/
def Extends (σ τ : Subst) : Prop := ∀ v u, σ.lookup v = some u → τ.lookup v = some u

theorem Extends.trans {σ τ ρ : Subst} (h₁ : Extends σ τ) (h₂ : Extends τ ρ) : Extends σ ρ :=
  fun v u h => h₂ v u (h₁ v u h)

mutual
/-- A match extends the substitution it starts from, and every extension of its result
instantiates the pattern to the term. -/
theorem pmatchAux_sound : ∀ (p t : Term) (σ σ' : Subst), pmatchAux p t σ = some σ' →
    Extends σ σ' ∧ ∀ τ, Extends σ' τ → p.substitute τ = t
  | .variable v, t, σ, σ', h => by
    simp only [pmatchAux] at h
    split at h
    · rename_i u hu
      split_ifs at h with hut
      cases h
      exact ⟨fun _ _ => id, fun τ hτ => by simp [hτ v u hu, hut]⟩
    · rename_i hv
      cases h
      refine ⟨fun w u hw => ?_, fun τ hτ => by simp [hτ v t List.lookup_cons_self]⟩
      by_cases hwv : w = v
      · subst hwv
        rw [hv] at hw
        cases hw
      · simpa [List.lookup_cons, beq_false_of_ne hwv] using hw
  | .application f as, .application g bs, σ, σ', h => by
    simp only [pmatchAux] at h
    split_ifs at h with hfg
    subst hfg
    obtain ⟨he, hs⟩ := pmatchList_sound as bs σ σ' h
    exact ⟨he, fun τ hτ => by simp [hs τ hτ]⟩
  | .application _ _, .variable _, _, _, h => by simp [pmatchAux] at h
theorem pmatchList_sound : ∀ (as bs : List Term) (σ σ' : Subst), pmatchList as bs σ = some σ' →
    Extends σ σ' ∧ ∀ τ, Extends σ' τ → as.map (substitute τ) = bs
  | [], [], σ, σ', h => by
    cases h
    exact ⟨fun _ _ => id, fun _ _ => rfl⟩
  | a :: as, b :: bs, σ, σ', h => by
    obtain ⟨σ₁, h₁, h₂⟩ := Option.bind_eq_some.mp h
    obtain ⟨e₁, s₁⟩ := pmatchAux_sound a b σ σ₁ h₁
    obtain ⟨e₂, s₂⟩ := pmatchList_sound as bs σ₁ σ' h₂
    exact ⟨e₁.trans e₂, fun τ hτ => by rw [List.map_cons, s₁ τ (e₂.trans hτ), s₂ τ hτ]⟩
  | [], _ :: _, _, _, h => by simp [pmatchList] at h
  | _ :: _, [], _, _, h => by simp [pmatchList] at h
end

/-- A match instantiates the pattern to the term. -/
theorem pmatch_sound {p t : Term} {σ : Subst} (h : pmatch p t = some σ) : p.substitute σ = t :=
  (pmatchAux_sound p t [] σ h).2 σ fun _ _ => id

/-! ### Completeness of matching -/

/-- Two substitutions that instantiate `t` alike agree on its variables. -/
theorem agree_of_substitute_eq {σ τ : Subst} : ∀ t : Term, t.substitute σ = t.substitute τ →
    ∀ v ∈ t.vars, (σ.lookup v).getD (.variable v) = (τ.lookup v).getD (.variable v) := by
  refine induction (fun w h v hv => ?_) (fun op args ih h v hv => ?_)
  · rw [vars_variable, List.mem_singleton] at hv
    subst hv
    exact h
  · simp only [substitute_application, Term.application.injEq, true_and, List.map_inj_left] at h
    obtain ⟨a, ha, hva⟩ := List.mem_flatMap.mp (by rwa [vars_application] at hv)
    exact ih a ha (h a ha) v hva

/-- `σ` binds each of its variables to its image under `τ`. -/
def BindsAs (σ τ : Subst) : Prop :=
  ∀ v u, σ.lookup v = some u → (τ.lookup v).getD (.variable v) = u

mutual
/-- A match of `p` against any of its instances succeeds from every start that binds as the
instance does, and binds as the instance does. -/
theorem pmatchAux_complete {τ : Subst} : ∀ (p : Term) (σ : Subst), BindsAs σ τ →
    ∃ σ', pmatchAux p (p.substitute τ) σ = some σ' ∧ BindsAs σ' τ
  | .variable v, σ, hσ => by
    cases h : σ.lookup v with
    | some u =>
      refine ⟨σ, ?_, hσ⟩
      rw [pmatchAux, h, substitute_variable, hσ v u h]
      exact if_pos rfl
    | none =>
      refine ⟨(v, (τ.lookup v).getD (.variable v)) :: σ, by rw [pmatchAux, h]; rfl,
        fun w u hw => ?_⟩
      by_cases hwv : w = v
      · subst hwv
        rw [List.lookup_cons_self] at hw
        exact Option.some.inj hw
      · exact hσ w u (by simpa [List.lookup_cons, beq_false_of_ne hwv] using hw)
  | .application f as, σ, hσ => by
    rw [substitute_application, pmatchAux, if_pos rfl]
    exact pmatchList_complete as σ hσ
theorem pmatchList_complete {τ : Subst} : ∀ (as : List Term) (σ : Subst), BindsAs σ τ →
    ∃ σ', pmatchList as (as.map (substitute τ)) σ = some σ' ∧ BindsAs σ' τ
  | [], σ, hσ => ⟨σ, rfl, hσ⟩
  | a :: as, σ, hσ => by
    obtain ⟨σ₁, h₁, hσ₁⟩ := pmatchAux_complete a σ hσ
    obtain ⟨σ₂, h₂, hσ₂⟩ := pmatchList_complete as σ₁ hσ₁
    exact ⟨σ₂, by rw [List.map_cons, pmatchList, h₁, Option.some_bind, h₂], hσ₂⟩
end

/-- A pattern matches every instance of itself. -/
theorem pmatch_isSome_of_substitute {p : Term} (τ : Subst) : (pmatch p (p.substitute τ)).isSome :=
  let ⟨_, h, _⟩ := pmatchAux_complete p [] (τ := τ) fun _ _ h => by cases h
  by rw [pmatch, h]; rfl

/-- A pattern matches exactly its instances. -/
theorem pmatch_isSome_iff {p t : Term} : (pmatch p t).isSome ↔ ∃ σ, p.substitute σ = t := by
  refine ⟨fun h => ?_, fun ⟨σ, hσ⟩ => hσ ▸ pmatch_isSome_of_substitute σ⟩
  obtain ⟨σ, hσ⟩ := Option.isSome_iff_exists.mp h
  exact ⟨σ, pmatch_sound hσ⟩

/-! ### Soundness of α-equivalence -/

/-- Variable pairs read as a bijection: two pairs agree on the first variable exactly when they
agree on the second. -/
def IsRenaming (m : List (Variable × Variable)) : Prop :=
  ∀ p ∈ m, ∀ q ∈ m, p.1 = q.1 ↔ p.2 = q.2

theorem IsRenaming.tail {a : Variable × Variable} {m : List (Variable × Variable)}
    (h : IsRenaming (a :: m)) : IsRenaming m :=
  fun p hp q hq => h p (.tail _ hp) q (.tail _ hq)

theorem IsRenaming.swap {m : List (Variable × Variable)} (h : IsRenaming m) :
    IsRenaming (m.map Prod.swap) := by
  intro p hp q hq
  obtain ⟨p', hp', rfl⟩ := List.mem_map.mp hp
  obtain ⟨q', hq', rfl⟩ := List.mem_map.mp hq
  exact (h p' hp' q' hq').symm

/-- In a renaming, the substitution `alpha` builds maps the first variable of each pair to the
second. -/
theorem lookup_of_isRenaming : ∀ {m : List (Variable × Variable)}, IsRenaming m →
    ∀ {v w : Variable}, (v, w) ∈ m →
      (m.map fun p => (p.1, Term.variable p.2)).lookup v = some (.variable w)
  | [], _, _, _, h => absurd h (List.not_mem_nil _)
  | (a, b) :: m, hm, v, w, h => by
    by_cases hav : a = v
    · subst hav
      rw [List.map_cons, List.lookup_cons_self, (hm _ (.head _) _ h).mp rfl]
    · have h' : (v, w) ∈ m :=
        (List.mem_cons.mp h).resolve_left fun he => hav (congrArg Prod.fst he).symm
      simpa [List.lookup_cons, beq_false_of_ne (Ne.symm hav)] using lookup_of_isRenaming hm.tail h'

mutual
/-- A successful `alpha` step keeps the pairs it started from and stays a renaming, pairs every
variable of `s`, and any substitution that maps the first variable of each pair to the second
takes `s` to `t`. -/
theorem alphaAux_sound : ∀ (s t : Term) (m m' : List (Variable × Variable)),
    alphaAux s t m = some m' → IsRenaming m →
      IsRenaming m' ∧ m ⊆ m' ∧ (∀ v ∈ s.vars, ∃ w, (v, w) ∈ m') ∧
        ∀ τ : Subst, (∀ p ∈ m', τ.lookup p.1 = some (.variable p.2)) → s.substitute τ = t
  | .variable v, .variable w, m, m', h, hm => by
    simp only [alphaAux] at h
    split_ifs at h with hall
    cases h
    refine ⟨fun p hp q hq => ?_, List.subset_cons_self _ _,
      fun x hx => ⟨w, List.mem_singleton.mp hx ▸ .head _⟩, fun τ hτ => by simp [hτ (v, w) (.head _)]⟩
    have hnew : ∀ q ∈ m, q.1 = v ↔ q.2 = w := fun q hq => by
      simpa using List.all_eq_true.mp hall q hq
    rcases List.mem_cons.mp hp with rfl | hp <;> rcases List.mem_cons.mp hq with rfl | hq
    · exact iff_of_true rfl rfl
    · exact eq_comm.trans ((hnew q hq).trans eq_comm)
    · exact hnew p hp
    · exact hm p hp q hq
  | .application f as, .application g bs, m, m', h, hm => by
    simp only [alphaAux] at h
    split_ifs at h with hfg
    subst hfg
    obtain ⟨h₁, h₂, h₃, h₄⟩ := alphaList_sound as bs m m' h hm
    exact ⟨h₁, h₂, by rwa [vars_application], fun τ hτ => by simp [h₄ τ hτ]⟩
  | .variable _, .application _ _, _, _, h, _ => by simp [alphaAux] at h
  | .application _ _, .variable _, _, _, h, _ => by simp [alphaAux] at h
theorem alphaList_sound : ∀ (as bs : List Term) (m m' : List (Variable × Variable)),
    alphaList as bs m = some m' → IsRenaming m →
      IsRenaming m' ∧ m ⊆ m' ∧ (∀ v ∈ as.flatMap vars, ∃ w, (v, w) ∈ m') ∧
        ∀ τ : Subst, (∀ p ∈ m', τ.lookup p.1 = some (.variable p.2)) → as.map (substitute τ) = bs
  | [], [], m, m', h, hm => by
    cases h
    exact ⟨hm, List.Subset.refl _, by simp, fun _ _ => rfl⟩
  | a :: as, b :: bs, m, m', h, hm => by
    obtain ⟨m₁, h₁, h₂⟩ := Option.bind_eq_some.mp h
    obtain ⟨r₁, s₁, v₁, t₁⟩ := alphaAux_sound a b m m₁ h₁ hm
    obtain ⟨r₂, s₂, v₂, t₂⟩ := alphaList_sound as bs m₁ m' h₂ r₁
    refine ⟨r₂, fun x hx => s₂ (s₁ hx), fun v hv => ?_, fun τ hτ => ?_⟩
    · rcases List.mem_append.mp (List.flatMap_cons a as vars ▸ hv) with hv | hv
      · obtain ⟨w, hw⟩ := v₁ v hv
        exact ⟨w, s₂ hw⟩
      · exact v₂ v hv
    · rw [List.map_cons, t₁ τ fun p hp => hτ p (s₂ hp), t₂ τ hτ]
  | [], _ :: _, _, _, h, _ => by simp [alphaList] at h
  | _ :: _, [], _, _, h, _ => by simp [alphaList] at h
end

/-- The renaming `alpha` finds takes `s` to `t`. -/
theorem alpha_sound {s t : Term} {σ : Subst} (h : alpha s t = some σ) : s.substitute σ = t := by
  obtain ⟨m, hm, rfl⟩ := Option.map_eq_some'.mp h
  obtain ⟨hr, -, -, hs⟩ := alphaAux_sound s t [] m hm (by simp [IsRenaming])
  exact hs _ fun p hp => lookup_of_isRenaming hr hp

/-- The renamings `alpha` finds either way are inverse on the variables of `s`. -/
theorem alpha_inverse {s t : Term} {σ σ' : Subst} (h : alpha s t = some σ)
    (h' : alpha t s = some σ') :
    ∀ v ∈ s.vars, ∃ w, σ.lookup v = some (.variable w) ∧ σ'.lookup w = some (.variable v) := by
  obtain ⟨m, hm, rfl⟩ := Option.map_eq_some'.mp h
  have hswap := alphaAux_swap s t []
  simp only [List.map_nil, hm, Option.map_some'] at hswap
  simp only [alpha, hswap, Option.map_some', Option.some.injEq] at h'
  subst h'
  obtain ⟨hr, -, hv, -⟩ := alphaAux_sound s t [] m hm (by simp [IsRenaming])
  intro v hvs
  obtain ⟨w, hw⟩ := hv v hvs
  exact ⟨w, lookup_of_isRenaming hr hw,
    lookup_of_isRenaming hr.swap (List.mem_map.mpr ⟨(v, w), hw, rfl⟩)⟩

/-- `t` is a variant of `s`: `s` with its variables renamed injectively. -/
def IsVariant (s t : Term) : Prop :=
  ∃ m : List (Variable × Variable), IsRenaming m ∧ (∀ v ∈ s.vars, ∃ w, (v, w) ∈ m) ∧
    s.substitute (m.map fun p => (p.1, .variable p.2)) = t

mutual
/-- `alpha` accepts `s` against its renaming by any renaming `m` that pairs every variable of
`s`, from any start whose pairs are pairs of `m`. -/
theorem alphaAux_complete {m : List (Variable × Variable)} (hm : IsRenaming m) :
    ∀ (s : Term) (acc : List (Variable × Variable)), acc ⊆ m → (∀ v ∈ s.vars, ∃ w, (v, w) ∈ m) →
      ∃ acc', alphaAux s (s.substitute (m.map fun p => (p.1, .variable p.2))) acc = some acc' ∧
        acc' ⊆ m
  | .variable v, acc, hacc, hv => by
    obtain ⟨w, hw⟩ := hv v (by simp)
    have hall : (acc.all fun p => (p.1 == v) == (p.2 == w)) = true :=
      List.all_eq_true.mpr fun p hp => by simpa using hm p (hacc hp) (v, w) hw
    refine ⟨(v, w) :: acc, ?_, List.cons_subset.mpr ⟨hw, hacc⟩⟩
    rw [substitute_variable, lookup_of_isRenaming hm hw, Option.getD_some, alphaAux, if_pos hall]
  | .application f as, acc, hacc, hv => by
    simp only [substitute_application, alphaAux, if_true]
    exact alphaList_complete hm as acc hacc (by rwa [vars_application] at hv)
theorem alphaList_complete {m : List (Variable × Variable)} (hm : IsRenaming m) :
    ∀ (as : List Term) (acc : List (Variable × Variable)), acc ⊆ m →
      (∀ v ∈ as.flatMap vars, ∃ w, (v, w) ∈ m) →
      ∃ acc', alphaList as (as.map (substitute (m.map fun p => (p.1, .variable p.2)))) acc =
        some acc' ∧ acc' ⊆ m
  | [], acc, hacc, _ => ⟨acc, rfl, hacc⟩
  | a :: as, acc, hacc, hv => by
    rw [List.flatMap_cons] at hv
    obtain ⟨acc₁, h₁, hs₁⟩ := alphaAux_complete hm a acc hacc fun v h => hv v (List.mem_append_left _ h)
    obtain ⟨acc₂, h₂, hs₂⟩ :=
      alphaList_complete hm as acc₁ hs₁ fun v h => hv v (List.mem_append_right _ h)
    exact ⟨acc₂, by simp [alphaList, h₁, h₂], hs₂⟩
end

/-- `alpha` succeeds exactly on variants. -/
theorem alpha_isSome_iff {s t : Term} : (alpha s t).isSome ↔ IsVariant s t := by
  constructor
  · intro h
    obtain ⟨σ, hσ⟩ := Option.isSome_iff_exists.mp h
    obtain ⟨m, hm, rfl⟩ := Option.map_eq_some'.mp hσ
    obtain ⟨hr, -, hv, hs⟩ := alphaAux_sound s t [] m hm (by simp [IsRenaming])
    exact ⟨m, hr, hv, hs _ fun p hp => lookup_of_isRenaming hr hp⟩
  · rintro ⟨m, hm, hv, rfl⟩
    obtain ⟨acc, h, -⟩ := alphaAux_complete hm s [] (List.nil_subset _) hv
    simp [alpha, h]

/-! ### Composition of substitutions -/

/-- `σ` then `τ`, as one substitution on the variables `vs`. -/
def compose (vs : List Variable) (σ τ : Subst) : Subst :=
  vs.map fun v => (v, ((σ.lookup v).getD (.variable v)).substitute τ)

theorem lookup_compose {σ τ : Subst} {v : Variable} :
    ∀ {vs : List Variable}, v ∈ vs →
      (compose vs σ τ).lookup v = some (((σ.lookup v).getD (.variable v)).substitute τ)
  | x :: vs, h => by
    by_cases hxv : x = v
    · subst hxv
      exact List.lookup_cons_self
    · have h' := (List.mem_cons.mp h).resolve_left (Ne.symm hxv)
      simpa [compose, List.lookup_cons, beq_false_of_ne (Ne.symm hxv)] using lookup_compose h'

/-- Substituting by `compose vs σ τ` is substituting by `σ` and then by `τ`, on a term whose
variables are in `vs`. -/
theorem substitute_compose {vs : List Variable} {σ τ : Subst} : ∀ t : Term,
    (∀ v ∈ t.vars, v ∈ vs) → t.substitute (compose vs σ τ) = (t.substitute σ).substitute τ := by
  refine induction (fun v hv => by simp [lookup_compose (hv v (by simp))])
    (fun op args ih hv => ?_)
  simp only [substitute_application, List.map_map]
  exact congrArg _ (List.map_congr_left fun a ha =>
    ih a ha fun v hva => hv v (by simpa using ⟨a, ha, hva⟩))

/-- Two substitutions that agree on the variables of `t` agree on `t`. -/
theorem substitute_congr {σ τ : Subst} : ∀ t : Term,
    (∀ v ∈ t.vars, (σ.lookup v).getD (.variable v) = (τ.lookup v).getD (.variable v)) →
      t.substitute σ = t.substitute τ := by
  refine induction (fun v hv => by simpa using hv v (by simp)) (fun op args ih hv => ?_)
  simp only [substitute_application]
  exact congrArg _ (List.map_congr_left fun a ha =>
    ih a ha fun v hva => hv v (by simpa using ⟨a, ha, hva⟩))

end TermRewriting.Term
