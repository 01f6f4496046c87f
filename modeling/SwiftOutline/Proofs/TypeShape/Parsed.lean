/-
  SwiftOutline.Proofs.TypeShape.Parsed

  A shape that is written as the type of a constant is parsed without problems,
  and the syntax tree of the text is the one that belongs to the shape. The
  outline of the text has one variable, with the shape of the type that stands
  behind the colon.
-/
import SwiftOutline.Outline.Collect
import SwiftOutline.Proofs.TypeExpr.Annotation
import SwiftOutline.Proofs.TypeShape.Apart
import SwiftOutline.Proofs.TypeShape.Derived

namespace SwiftOutline

open Lexer SwiftOutline.Tree

namespace TypeShape

variable {t : TypeShape}

/-- The declaration of a constant with a type, as it is written. -/
def constantText (t : TypeShape) : String := "let value: " ++ t.render

/-- The type of a constant behind its colon. -/
def ascriptionTree (u : Tree) : Tree :=
  .node .ascription [.leaf ⟨.colon, ":"⟩, blankTree, u]

/-- The syntax tree of the declaration of a constant with a type. -/
def constantTree (u : Tree) : Tree :=
  .node .variableDecl [.leaf ⟨.kwLet, "let"⟩, blankTree, .node .patternBindingList
    [.node .patternBinding [.node .identifierPattern [wordTree "value"], ascriptionTree u]]]

/-- The text of the declaration is read as the tokens of its tree. -/
theorem lex_constantText (h : Printable t) :
    lex t.constantText = (constantTree t.tree).leaves := by
  have hlet : lex "let" = [⟨.kwLet, "let"⟩] := Lexer.lex_word rfl rfl nofun
  have hvalue : lex "value" = [⟨.ident, "value"⟩] := Lexer.lex_word rfl rfl nofun
  have htext : t.constantText.toList =
      "let".toList ++ ' ' :: ("value".toList ++ ':' :: ' ' :: t.render.toList) := by
    simp [constantText]
  have htype := readsAs_tree h [] .nil
  rw [List.append_nil] at htype
  rw [lex_eq_tokensOf, htext, tokensOf_append hlet (by decide) (by simp; decide),
    tokensOf_blank (by simp; decide), tokensOf_ident hvalue (by simp; decide), tokensOf_colon,
    tokensOf_blank h.begins.isBlank, htype]
  simp [constantTree, ascriptionTree, wordTree, blankTree, leaves, forestLeaves, tokensOf,
    tokensFrom?]

variable {u : Tree} {source : String}

theorem snug_constantTree (h : u.Snug) : (constantTree u).Snug := by
  have hascription : Snug (ascriptionTree u) := .node (.leaf rfl) (.trivia rfl (.cons h .nil))
  have hpattern : Snug (.node .identifierPattern [wordTree "value"]) := .node (.leaf rfl) .nil
  have hbinding : Snug (.node .patternBinding
      [.node .identifierPattern [wordTree "value"], ascriptionTree u]) :=
    .node hpattern (.cons hascription .nil)
  exact .node (.leaf rfl) (.trivia rfl (.cons (.node hbinding .nil) .nil))

/-- The lexemes of the declaration are parsed into its tree, and nothing is reported. -/
theorem finalState_constantTree (h : FormsTree .type u) :
    (finalState (constantTree u).leaves).built = [(constantTree u).withoutTrivia] ∧
    (finalState (constantTree u).leaves).reports = [] := by
  obtain ⟨ls, hls, hd⟩ := h.derives ⟨true, false⟩
  have hlexemes : Lexeme.ofTokens (constantTree u).leaves =
      (⟨.kwLet, "let", .none⟩ :: ⟨.ident, "value", ⟨true, false⟩⟩ :: ⟨.colon, ":", .none⟩ :: ls,
        .none) := by
    simp (disch := decide) [constantTree, ascriptionTree, wordTree, blankTree, leaves,
      forestLeaves, Lexeme.ofTokens, Lexeme.ofTokensAfter_cons, Lexeme.ofTokensAfter_blank, hls]
  have hstate := Grammar.parseLexemes_annotated (l := ⟨.kwLet, "let", .none⟩)
    (n := ⟨.ident, "value", ⟨true, false⟩⟩) (a := ⟨.colon, ":", .none⟩) rfl rfl rfl hd .none
  rw [finalState, hlexemes]
  dsimp only
  rw [hstate]
  refine ⟨?_, rfl⟩
  simp [State.after, State.initial, Grammar.annotated, constantTree, ascriptionTree, wordTree,
    blankTree, withoutTrivia, forestWithoutTrivia, h.snug.isTriviaLeaf_eq, Token.isTrivia,
    TokenKind.isTrivia, Lexeme.leaf, Lexeme.token]

/-- A declaration with a type of the grammar is parsed without problems, and its tree is the one
    with this type. -/
theorem parse_constant (h : FormsTree .type u) (hsource : lex source = (constantTree u).leaves) :
    parse source = ⟨.node .sourceFile [constantTree u], []⟩ := by
  obtain ⟨hbuilt, hreports⟩ := finalState_constantTree h
  have hroot := SnugForest.rootWithTrivia_eq (.cons (snug_constantTree h.snug) .nil)
  have hforest : forestWithoutTrivia [constantTree u] = [(constantTree u).withoutTrivia] := rfl
  have hleaves : forestLeaves [constantTree u] = (constantTree u).leaves := by
    rw [forestLeaves, forestLeaves, List.append_nil]
  rw [hforest, hleaves] at hroot
  rw [parse, hsource, parseTokens]
  rw [hbuilt, hreports, List.reverse_singleton, hroot]
  rfl

/-- The declaration with a shape that is written is parsed without problems, and its tree is the
    one of the shape. -/
theorem parse_constantText (h : Printable t) :
    parse t.constantText = ⟨.node .sourceFile [constantTree t.tree], []⟩ :=
  parse_constant h.forms (lex_constantText h)

end TypeShape

open SwiftOutline.Tree TypeShape

variable {u : Tree} {source : String}

/-- Where the type of a constant stands in the tree of its text. -/
def Cursor.ofAscribed (u : Tree) : Cursor :=
  let front := "let value: ".utf8ByteSize
  ⟨u, front, [
    ⟨.ascription, front - 2, [blankTree, .leaf ⟨.colon, ":"⟩], []⟩,
    ⟨.patternBinding, front - 7, [.node .identifierPattern [wordTree "value"]], []⟩,
    ⟨.patternBindingList, front - 7, [], []⟩,
    ⟨.variableDecl, 0, [blankTree, .leaf ⟨.kwLet, "let"⟩], []⟩,
    ⟨.sourceFile, 0, [], []⟩]⟩

/-- Where the declaration of a constant stands. -/
def Cursor.ofConstant (u : Tree) : Cursor := ⟨constantTree u, 0, [⟨.sourceFile, 0, [], []⟩]⟩

/-- Where the binding of a constant stands. -/
def Cursor.ofBinding (u : Tree) : Cursor :=
  let front := "let ".utf8ByteSize
  ⟨.node .patternBinding [.node .identifierPattern [wordTree "value"], ascriptionTree u], front,
    ⟨.patternBindingList, front, [], []⟩ ::
      ⟨.variableDecl, 0, [blankTree, .leaf ⟨.kwLet, "let"⟩], []⟩ :: [⟨.sourceFile, 0, [], []⟩]⟩

theorem typeNode?_ofBinding (hu : u.nodeKind?.any NodeKind.isType = true) :
    Binding.typeNode? (.ofBinding u) [] = some (.ofAscribed u) := by
  have hascription : (Cursor.ofBinding u).child? .ascription =
      some ⟨ascriptionTree u, 9, (Cursor.ofAscribed u).above.tail⟩ := rfl
  have htype : Cursor.typeChild? ⟨ascriptionTree u, 9, (Cursor.ofAscribed u).above.tail⟩ =
      some (.ofAscribed u) := by
    have hfind : (Cursor.childrenFrom .ascription 9 (Cursor.ofAscribed u).above.tail [] 9
        ([.leaf ⟨.colon, ":"⟩, blankTree] ++ u :: [])).find?
          (fun e => e.tree.nodeKind?.any NodeKind.isType) = _ :=
      Cursor.find?_childrenFrom (p := fun t => t.nodeKind?.any NodeKind.isType)
        (by simp [blankTree, nodeKind?]) hu
    exact hfind
  rw [Binding.typeNode?, Binding.ascribed?, hascription, Option.bind_some, htype]

theorem nameOf_ofBinding : Binding.nameOf (.ofBinding u) = "value" := by
  have hpattern : ∃ start above, (Cursor.ofBinding u).children.find? Cursor.isPattern =
      some ⟨.node .identifierPattern [wordTree "value"], start, above⟩ := ⟨_, _, rfl⟩
  obtain ⟨start, above, hpattern⟩ := hpattern
  rw [Binding.nameOf, hpattern]
  show Text.trim (Tree.node .identifierPattern [wordTree "value"]).text = "value"
  decide +kernel

/-- The declaration of a constant is read as its only binding. -/
theorem read_ofConstant (m : ViewMode) : ∃ header, Declaration.read m (.ofConstant u) =
    [.mk header (.ofConstant u) (.binding (Binding.ofCursor m (.ofBinding u) []))] ∧
      header.name = "value" := by
  have hread : Declaration.read m (.ofConstant u) = Declaration.variablesOf m (.ofConstant u) := rfl
  have hlist : ∃ list, (Cursor.ofConstant u).child? .patternBindingList = some list ∧
      list.childrenOf m .patternBinding = [.ofBinding u] := by
    refine ⟨_, rfl, ?_⟩
    cases m <;> rfl
  obtain ⟨list, hlist, hbindings⟩ := hlist
  rw [hread, Declaration.variablesOf, hlist]
  dsimp only
  rw [hbindings, Binding.allFrom, Binding.allFrom, nameOf_ofBinding]
  exact ⟨_, rfl, rfl⟩

/-- The outline of a text that is the declaration of a constant. -/
theorem outline_constant (m : ViewMode) (hu : u.nodeKind?.any NodeKind.isType = true)
    (htree : (parse source).tree = .node .sourceFile [constantTree u]) :
    ∃ header place b, Outline.ofSource m source = [.mk header place (.binding b)] ∧
      header.name = "value" ∧ b.type = classify (.ofAscribed u) ∧
      b.typeText = some (Cursor.ofAscribed u).description := by
  have hnodes : (Cursor.ofTree (parse source).tree).gather (visitDeclarations m) =
      [.ofConstant u] := by
    rw [htree]
    cases m <;> rfl
  obtain ⟨header, hread, hname⟩ := read_ofConstant (u := u) m
  refine ⟨header, .ofConstant u, Binding.ofCursor m (.ofBinding u) [], ?_, hname, ?_, ?_⟩
  · rw [Outline.ofSource, Outline.ofCursor, hnodes, ← hread]
    simp [Outline.ofNodes, DeclarationKind.all, Cursor.ofConstant, constantTree, nodeKind?,
      DeclarationKind.ofNode?]
  · rw [Binding.ofCursor, typeNode?_ofBinding hu]
    rfl
  · rw [Binding.ofCursor, typeNode?_ofBinding hu]
    rfl

end SwiftOutline
