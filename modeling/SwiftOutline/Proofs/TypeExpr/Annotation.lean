/-
  SwiftOutline.Proofs.TypeExpr.Annotation

  A file that declares one constant with a type. If the grammar derives the type,
  the parser reports nothing and builds the declaration with the tree of the
  derivation in it.
-/
import SwiftOutline.Proofs.TypeExpr.Complete

namespace SwiftOutline

namespace Grammar

open SwiftOutline.Parser

variable {l n a : Lexeme} {ls : List Lexeme} {t : Tree}

/-! ## Files -/

theorem atEnd_of_nil {v : View} (h : v.lexemes = []) : v.atEnd = true := by
  rw [View.atEnd, View.kind_eq, h]
  rfl

/-- What is read of a file at some depth is what parsing the file gives. -/
theorem parseLexemes_of_reads {ts : List Tree} (h : Reads file () ⟨ls, []⟩ ⟨[], ts⟩) (endGap : Gap) :
    parseLexemes ls endGap = (State.initial ls endGap).after ⟨[], ts⟩ := by
  obtain ⟨final, -, -, hrun⟩ := exists_proceeds_file ls endGap
  obtain ⟨enough, hread⟩ := h (State.initial ls endGap)
  have hparse : parseLexemes ls endGap = final := by
    rw [parseLexemes, hrun _ (Nat.le_refl _)]
  have hself : (State.initial ls endGap).after ⟨ls, []⟩ = State.initial ls endGap :=
    State.after_self rfl
  have hdeep := hread (max enough (depthBound ls.length)) (Nat.le_max_left _ _)
  rw [hself, hrun _ (Nat.le_max_right _ _)] at hdeep
  rw [hparse]
  exact (Prod.mk.inj hdeep).2

/-- Items that are a single one. -/
theorem reads_items_of_item {scope : Scope} (hends : ∀ v : View, v.lexemes = l :: ls →
      (v.atEnd || endsItems scope v) = false)
    (h : Reads (item scope) () ⟨l :: ls, []⟩ ⟨[], [t]⟩) :
    Reads (items scope) () ⟨l :: ls, []⟩ ⟨[], [t]⟩ := by
  unfold items
  refine Reads.repeating (d := ⟨[], [t]⟩) (.single ⟨?_, by simp⟩) ?_
  · refine Reads.view fun v hv => ?_
    rw [if_neg (by rw [hends v hv]; decide)]
    refine h.bind (Reads.view fun w hw => ?_)
    rw [hv, hw, if_neg (by simp)]
    exact Reads.pure
  · refine Reads.view fun v hv => ?_
    rw [if_pos (by rw [atEnd_of_nil hv, Bool.true_or])]
    exact Reads.pure

/-- A file of a single item. -/
theorem reads_file_of_item (hends : ∀ v : View, v.lexemes = l :: ls →
      (v.atEnd || endsItems .topLevel v) = false)
    (h : Reads (item .topLevel) () ⟨l :: ls, []⟩ ⟨[], [t]⟩) :
    Reads file () ⟨l :: ls, []⟩ ⟨[], [t]⟩ := by
  have hbody : Reads (body (.items .topLevel)) true ⟨l :: ls, []⟩ ⟨[], [t]⟩ :=
    (reads_items_of_item hends h).bind Reads.pure
  unfold file
  refine (Reads.follow' hbody).bind (Reads.repeating_not ?_)
  refine Reads.view fun v hv => ?_
  rw [if_pos (atEnd_of_nil hv)]
  exact Reads.pure

/-! ## Declarations -/

/-- The tree of a constant with a type. -/
def annotated (l n a : Lexeme) (t : Tree) : Tree :=
  .node .variableDecl [l.leaf, .node .patternBindingList [.node .patternBinding
    [.node .identifierPattern [n.leaf], .node .ascription [a.leaf, t]]]]

/-- The type of a binding, at the end of a file. -/
theorem reads_optionalAscription (ha : a.kind = .colon) (h : Derives true .type ls [t])
    (ts : List Tree) :
    Reads optionalAscription () ⟨a :: ls, ts⟩ ⟨[], ts ++ [Tree.node .ascription [a.leaf, t]]⟩ := by
  have htype : Reads typeExpr true ⟨ls, []⟩ ⟨[], [t]⟩ := by
    have hread := h.isRead [] (by simp [Stops])
    rwa [List.append_nil] at hread
  unfold optionalAscription
  refine Reads.sees ?_
  rw [Lookahead.headKind, if_pos (by simp [ha])]
  refine Reads.node ts ?_
  exact (Reads.bump (by simp [ha])).bind (Reads.follow' (htype.onto [a.leaf]))

/-- A name with a type and nothing behind it. -/
theorem reads_patternBinding (hn : n.kind = .ident) (ha : a.kind = .colon)
    (h : Derives true .type ls [t]) (ts : List Tree) :
    Reads patternBinding () ⟨n :: a :: ls, ts⟩
      ⟨[], ts ++ [Tree.node .patternBinding [.node .identifierPattern [n.leaf],
        .node .ascription [a.leaf, t]]]⟩ := by
  have hpattern : Reads bindingPattern () ⟨n :: a :: ls, []⟩
      ⟨a :: ls, [.node .identifierPattern [n.leaf]]⟩ := by
    unfold bindingPattern
    refine Reads.kind ?_
    simp only [Lookahead.headKind, hn]
    exact Reads.node [] (Reads.bump (by simp [hn]))
  have haccessors : ∀ us : List Tree, Reads (bindingAccessors false) () ⟨[], us⟩ ⟨[], us⟩ := by
    intro us
    unfold bindingAccessors
    refine Reads.view fun v hv => ?_
    rw [View.kind_eq, hv, if_neg (by simp [Lookahead.headKind])]
    exact Reads.pure
  unfold patternBinding
  refine Reads.node ts (hpattern.bind ((reads_optionalAscription ha h _).bind (Reads.sees ?_)))
  exact Reads.pure.bind (haccessors _)

/-- `let name: Type` as a declaration. -/
theorem reads_declaration (hl : l.kind = .kwLet) (hn : n.kind = .ident) (ha : a.kind = .colon)
    (h : Derives true .type ls [t]) :
    Reads (declaration .variableDecl) () ⟨l :: n :: a :: ls, []⟩ ⟨[], [annotated l n a t]⟩ := by
  have hattributes : Reads attributes () ⟨l :: n :: a :: ls, []⟩ ⟨l :: n :: a :: ls, []⟩ :=
    reads_attributes_none (by simp [Lookahead.headKind, hl])
  have hmodifiers : Reads modifiers () ⟨l :: n :: a :: ls, []⟩ ⟨l :: n :: a :: ls, []⟩ := by
    unfold modifiers
    refine Reads.view fun v hv => ?_
    rw [hv, if_neg (by simp [Lookahead.atModifier, Lookahead.headKind, Lookahead.atModifierWord, hl])]
    exact Reads.pure
  have hbindings : Reads bindings () ⟨l :: n :: a :: ls, []⟩ ⟨[], [l.leaf, .node .patternBindingList
      [.node .patternBinding [.node .identifierPattern [n.leaf], .node .ascription [a.leaf, t]]]]⟩ := by
    unfold bindings separated
    refine (Reads.bump (by simp [hl])).bind (Reads.node [l.leaf] ?_)
    refine Reads.repeating .refl ?_
    refine ((reads_patternBinding hn ha h []).bind Reads.pure).bind ?_
    dsimp only
    rw [if_pos rfl]
    exact Reads.eat_not (by simp [Lookahead.headKind])
  unfold declaration
  exact Reads.node [] (hattributes.bind (hmodifiers.bind hbindings))

/-- A file that is `let name: Type`. -/
theorem parseLexemes_annotated (hl : l.kind = .kwLet) (hn : n.kind = .ident) (ha : a.kind = .colon)
    (h : Derives true .type ls [t]) (endGap : Gap) :
    parseLexemes (l :: n :: a :: ls) endGap =
      (State.initial (l :: n :: a :: ls) endGap).after ⟨[], [annotated l n a t]⟩ := by
  refine parseLexemes_of_reads (reads_file_of_item (fun v hv => ?_) ?_) endGap
  · simp [View.atEnd, endsItems, View.kind_eq, hv, Lookahead.headKind, hl]
  · unfold item
    refine Reads.kind ?_
    simp only [Lookahead.headKind, hl]
    rw [if_pos (by decide)]
    unfold declarationOrStatement
    refine Reads.view fun v hv => ?_
    have hdeclaration : Lookahead.declaration? .topLevel v.lexemes = some .variableDecl := by
      simp [hv, Lookahead.declaration?, Lookahead.skipModifiers, Lookahead.skipAttributes,
        Lookahead.skipMany, Lookahead.skipAttribute?, Lookahead.skipModifier?,
        Lookahead.atModifier, Lookahead.atModifierWord, Lookahead.headKind, hl]
    rw [hdeclaration]
    exact reads_declaration hl hn ha h

end Grammar

end SwiftOutline
