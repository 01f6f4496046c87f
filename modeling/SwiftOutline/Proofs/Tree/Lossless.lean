/-
  SwiftOutline.Proofs.Tree.Lossless

  No token of a text is lost in its tree. The parser consumes every lexeme into
  a leaf, in order, so the leaves it builds are the significant tokens of the
  text, and weaving in the trivia makes all tokens of them.
-/
import SwiftOutline.Proofs.Progress.Termination
import SwiftOutline.Proofs.Token.Tiling
import SwiftOutline.Proofs.Tree.Leaves

namespace SwiftOutline

/-! ## Leaves -/

/-- The leaves that the parser builds are the tokens of the lexemes. -/
theorem forestLeaves_parseLexemes {lexemes : List Lexeme} (endGap : Gap)
    (h : ∀ l ∈ lexemes, l.kind ≠ .eof) :
    Tree.forestLeaves (parseLexemes lexemes endGap).built.reverse = lexemes.map Lexeme.token := by
  obtain ⟨eaten, hlexemes, -, hleaves⟩ := Grammar.leads_parseLexemes lexemes endGap
  have hrest : (parseLexemes lexemes endGap).view.lexemes = [] := by
    have hall := @List.dropWhile_append_of_pos _ (fun l : Lexeme => l.kind != .eof) lexemes []
      (by simpa using h)
    rw [Grammar.lexemes_parseLexemes]
    simpa using hall
  rw [hrest, List.append_nil] at hlexemes
  rw [hleaves, ← hlexemes]
  rfl

theorem forestLeaves_finalState {ts : List Token} (h : ∀ t ∈ ts, t.kind ≠ .eof) :
    Tree.forestLeaves (finalState ts).built.reverse = Token.significant ts := by
  have hkinds : ∀ l ∈ (Lexeme.ofTokens ts).1, l.kind ≠ .eof := by
    intro l hl
    have hmem : l.token ∈ Token.significant ts := by
      rw [← Lexeme.map_token_ofTokens]
      exact List.mem_map_of_mem hl
    exact h l.token (List.mem_filter.mp hmem).1
  exact (forestLeaves_parseLexemes _ hkinds).trans (Lexeme.map_token_ofTokens ts)

/-- The leaves of the tree of a text are the tokens of the text. -/
theorem leaves_parse (source : String) : (parse source).tree.leaves = lex source :=
  Tree.leaves_rootWithTrivia
    (forestLeaves_finalState fun _ ht => (proper_of_mem_lex ht).kind_ne_eof)

/-! ## Trees -/

/-- The tree of a text is a `sourceFile` whose tokens, from left to right, have the kinds, spans
    and texts of the tokens of the text. So the text of the tree is the text that was parsed. -/
theorem parse_lossless (source : String) :
    (∃ children, (parse source).tree = .node .sourceFile children) ∧
    ((Cursor.ofTree (parse source).tree).tokens.map fun c => (c.tree.kind, c.span, c.text)) =
      (Token.layout 0 (lex source)).map (fun p => (ElementKind.token p.2.kind, p.1, p.2.text)) ∧
    (parse source).tree.text = source := by
  refine ⟨⟨_, rfl⟩, ?_, ?_⟩
  · rw [← leaves_parse]
    exact Cursor.map_triple_tokensOf (parse source).tree 0 []
  · rw [Tree.text, leaves_parse, join_lex]

end SwiftOutline
