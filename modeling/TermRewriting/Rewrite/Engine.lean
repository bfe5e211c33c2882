import TermRewriting.Rewrite.StringRewrite

/-! `TRS::rewrite` (`TRSRewrites::new` and its iterator, `types/trs.rs`), and where the
strategies part from the spec's description of them. -/
namespace TermRewriting.TRS

/-- The terms `TRS::rewrite` yields under each strategy, in order; `none` is a panic, of the
search of `Normal::new` or of the slices of `Normal::next`. -/
def rewrite (trs : TRS) (term : Term) (strategy : Strategy) (sig : Signature) :
    Option (List Term) :=
  match strategy with
  | .normal => (trs.normalNew term).bind NormalKind.items
  | .eager => some (trs.rewriteEager term)
  | .all => some ((trs.rewriteAll term).getD [])
  | .string => some ((trs.rewriteAsString term sig).getD [])

/-- A signature with a binary `"."` (operator 0), nullary `A`, `B`, `C`, `D`, `G` (1 to 5),
a binary `F` (6) and unary `H`, `J` (7, 8). -/
def exampleSig : Signature :=
  ⟨⟨[(2, some "."), (0, some "A"), (0, some "B"), (0, some "C"), (0, some "D"), (0, some "G"),
    (2, some "F"), (1, some "H"), (1, some "J")], [some "x"]⟩⟩

/-- A redex two levels down: `J(H(C))` with `C = D` should give `J(H(D))`; the saved stack
holds only the frame of `H`, so the root `J` is lost. -/
theorem rewrite_normal_loses_context :
    (TRS.mk false [⟨.application ⟨3⟩ [], [.application ⟨4⟩ []]⟩]).rewrite
      (.application ⟨8⟩ [.application ⟨7⟩ [.application ⟨3⟩ []]]) .normal exampleSig =
      some [.application ⟨7⟩ [.application ⟨4⟩ []]] := by
  simp [rewrite, normalNew, firstRewrites, search_cons, NormalKind.items, List.mapM_cons,
    List.mapM_nil, List.mapM.loop, Frame.embed, Rule.rewrite, Term.pmatch, Term.pmatchAux,
    Term.pmatchList]

/-- A redex after a variable argument: `F(x, A)` with `A = B`. `Normal` yields nothing, while
`Eager` and `All` rewrite `A`. -/
theorem rewrite_normal_skips_after_variable :
    [Strategy.normal, .eager, .all].map (fun s =>
      (TRS.mk false [⟨.application ⟨1⟩ [], [.application ⟨2⟩ []]⟩]).rewrite
        (.application ⟨6⟩ [.variable ⟨0⟩, .application ⟨1⟩ []]) s exampleSig) =
      [some [], some [.application ⟨6⟩ [.variable ⟨0⟩, .application ⟨2⟩ []]],
        some [.application ⟨6⟩ [.variable ⟨0⟩, .application ⟨2⟩ []]]] := by
  simp only [List.map_cons, List.map_nil, List.cons.injEq, and_true]
  refine ⟨?_, by decide, by decide⟩
  simp [rewrite, normalNew, firstRewrites, search_cons, NormalKind.items, Rule.rewrite,
    Term.pmatch, Term.pmatchAux]

/-- A nullary term without a redex: the first frame `(C, 0, [])` is indexed past its end. -/
theorem rewrite_normal_nullary_panics :
    (TRS.mk false [⟨.application ⟨1⟩ [], [.application ⟨2⟩ []]⟩]).rewrite
      (.application ⟨3⟩ []) .normal exampleSig = none := by
  simp [rewrite, normalNew, firstRewrites, search_cons, Rule.rewrite, Term.pmatch,
    Term.pmatchAux]

/-- Two rules matching at the root, `H(x) = C` and `H(A) = D`: `All` yields only the first
one's clause, `C`. -/
theorem rewrite_all_first_rule_only :
    (TRS.mk false [⟨.application ⟨7⟩ [.variable ⟨0⟩], [.application ⟨3⟩ []]⟩,
      ⟨.application ⟨7⟩ [.application ⟨1⟩ []], [.application ⟨4⟩ []]⟩]).rewrite
      (.application ⟨7⟩ [.application ⟨1⟩ []]) .all exampleSig = some [.application ⟨3⟩ []] := by
  decide

/-- `A x B = C` against the string `A B`: `x` would match the empty segment, but an interior
segment is never empty, so nothing is yielded. -/
theorem rewrite_string_no_empty_interior :
    (TRS.mk false [⟨.application ⟨0⟩ [.application ⟨0⟩ [.application ⟨1⟩ [], .variable ⟨0⟩],
      .application ⟨2⟩ []], [.application ⟨3⟩ []]⟩]).rewrite
      (.application ⟨0⟩ [.application ⟨1⟩ [], .application ⟨2⟩ []]) .string exampleSig =
      some [] := by
  decide

end TermRewriting.TRS

/-! ### When `Normal` panics

The search pushes a frame only when it can index its argument; only the first frame, built
from the term's own arguments, is unchecked. -/
namespace TermRewriting

private theorem mapM_isSome {α β : Type} {f : α → Option β} :
    ∀ {l : List α}, (∀ x ∈ l, (f x).isSome) → (l.mapM f).isSome
  | [], _ => rfl
  | x :: l, h => by
    obtain ⟨y, hy⟩ := Option.isSome_iff_exists.mp (h x (.head _))
    obtain ⟨ys, hys⟩ := Option.isSome_iff_exists.mp (mapM_isSome fun z hz => h z (.tail _ hz))
    rw [List.mapM_cons, hy, hys]
    rfl

/-- Every frame of the stack can index its argument. -/
def Frame.InBounds (stack : List Frame) : Prop := ∀ fr ∈ stack, fr.arg < fr.args.length

theorem Frame.foldlM_embed_isSome : ∀ {stack : List Frame}, Frame.InBounds stack →
    ∀ s : Term, (stack.foldlM (fun (s : Term) (fr : Frame) => fr.embed s) s).isSome
  | [], _, _ => rfl
  | fr :: stack, h, s => by
    simp only [List.foldlM_cons, embed, h fr (.head _), if_true, Option.bind_eq_bind,
      Option.some_bind]
    exact foldlM_embed_isSome (fun f hf => h f (.tail _ hf)) _

namespace TRS

theorem search_items_isSome (trs : TRS) : ∀ stack : List Frame, Frame.InBounds stack →
    ∃ k, trs.search stack = some k ∧ k.items.isSome := by
  refine search.induct trs _ (fun _ => ⟨.none, search_nil trs, rfl⟩)
    (fun fr stack h hst => ?_) (fun fr stack v h ih hst => ?_)
    (fun fr stack newOp newArgs h it hit hst => ?_)
    (fun fr stack newOp newArgs h hnone ih hst => ?_)
  · simp [List.getElem?_eq_none_iff] at h
    exact absurd (hst fr (.head _)) (by omega)
  · rw [search_cons, h]
    exact ih fun f hf => hst f (.tail _ hf)
  · rw [search_cons, h]
    simp only [hit]
    exact ⟨_, rfl, mapM_isSome fun x _ => Frame.foldlM_embed_isSome hst x⟩
  · rw [search_cons, h]
    simp only [hnone]
    refine ih fun f hf => ?_
    rcases mem_next_stack hf with ⟨rfl, hn⟩ | ⟨rfl, hlt⟩ | hf
    · exact List.length_pos.mpr hn
    · exact hlt
    · exact hst f (.tail _ hf)

/-- `Normal` panics exactly on a nullary term that no rule rewrites at the head. -/
theorem rewrite_normal_eq_none_iff (trs : TRS) (t : Term) (sig : Signature) :
    trs.rewrite t .normal sig = none ↔ ∃ op, t = .application op [] ∧ trs.rewriteHead t = none := by
  cases t with
  | «variable» v => simp [rewrite, normalNew, NormalKind.items]
  | application op args =>
    simp only [rewrite, normalNew, ← firstRewrites_eq_rewriteHead, Term.application.injEq]
    cases hf : trs.firstRewrites (.application op args) with
    | some it => simp [NormalKind.items]
    | none =>
      rcases args with _ | ⟨a, args⟩
      · simp [search_cons]
      · obtain ⟨k, hk, hi⟩ := trs.search_items_isSome [⟨op, 0, a :: args⟩]
          (by simp [Frame.InBounds])
        simp only [hk, Option.some_bind, reduceCtorEq, false_and, and_false, exists_false,
          iff_false]
        exact Option.isSome_iff_ne_none.mp hi

end TRS

end TermRewriting
