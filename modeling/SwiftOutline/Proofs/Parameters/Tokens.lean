/-
  SwiftOutline.Proofs.Parameters.Tokens

  The text of a function that is written is read as the tokens of its tree, so that
  the function is parsed into the tree.
-/
import SwiftOutline.Proofs.Parameters.Parsed

namespace SwiftOutline

open Lexer SwiftOutline.Tree
open TypeShape (blankTree wordTree)

/-! ## Parameters -/

theorem LabelText.spells (l : LabelText) : Spells l.text l.tree := by
  refine .of_token l.lexed (TokenKind.isTrivia_of_isArgumentLabel l.isLabel) fun hmem => ?_
  have hlabel := l.isLabel
  simp only [List.mem_cons, List.not_mem_nil, or_false] at hmem
  rcases hmem with h | h <;> rw [h] at hlabel <;> exact absurd hlabel (by decide)

theorem LiteralToken.spells (l : LiteralToken) : Spells l.text (.leaf ⟨l.kind, l.text⟩) := by
  refine .of_token l.lexed (TokenKind.isTrivia_of_isLiteral l.isLiteral) fun hmem => ?_
  have hliteral := l.isLiteral
  simp only [List.mem_cons, List.not_mem_nil, or_false] at hmem
  rcases hmem with h | h <;> rw [h] at hliteral <;> exact absurd hliteral (by decide)

/-- A default, with the `=` in front of it. -/
theorem LiteralToken.spells_tree (l : LiteralToken) : Spells ("=" ++ (" " ++ l.text)) l.tree := by
  have hlex : lex "=" = [⟨.eq, "="⟩] := Lexer.lex_operator rfl rfl nofun
  have heq : Written "=" [.leaf ⟨.eq, "="⟩] := .of_token hlex (by decide)
  have hvalue : Spells l.text (.node .expr [.leaf ⟨l.kind, l.text⟩]) := l.spells.node
  exact ⟨.node (.leaf rfl) (.trivia rfl (.cons hvalue.snug .nil)), (heq.spaced hvalue).node⟩

namespace ParameterText

variable (p : ParameterText) {rest : List Char}

theorem written_names : Written p.namesText p.namesTrees := by
  rw [namesText, namesTrees]
  cases p.label with
  | none =>
    have htext : (none : Option LabelText).elim "" (fun l => l.text ++ " ") ++ p.name.text =
        p.name.text := String.empty_append
    rw [htext]
    exact p.name.spells.written
  | some l =>
    have htext : (some l).elim "" (fun l => l.text ++ " ") ++ p.name.text =
        l.text ++ (" " ++ p.name.text) := String.append_assoc ..
    rw [htext]
    exact l.spells.written.spaced p.name.spells

theorem written_dots : Written p.dotsText p.dotsTrees := by
  rw [dotsText, dotsTrees]
  cases p.variadic with
  | false => exact .nil
  | true =>
    have hlex : lex "..." = [⟨.ellipsis, "..."⟩] := Lexer.tokensOf_ellipsis
    exact .of_token hlex (by decide)

theorem written_default : Written p.defaultText p.defaultTrees := by
  rw [defaultText, defaultTrees]
  cases p.default with
  | none => exact .nil
  | some l =>
    have htext : " = " ++ l.text = " " ++ ("=" ++ (" " ++ l.text)) := by
      rw [← String.append_assoc, ← String.append_assoc]
      rfl
    show Written (" = " ++ l.text) _
    rw [htext]
    exact l.spells_tree.blank

theorem separates_dots (hrest : Separates rest) : Separates (p.dotsText.toList ++ rest) := by
  rw [dotsText]
  cases p.variadic with
  | false => exact hrest
  | true => exact .dots ('.' :: rest)

theorem separates_default (hrest : Separates rest) : Separates (p.defaultText.toList ++ rest) := by
  rw [defaultText]
  cases p.default with
  | none => exact hrest
  | some l => exact .blank ("= " ++ l.text) rest

theorem spells : Spells p.text p.tree := by
  have hlex : lex ":" = [⟨.colon, ":"⟩] := TypeShape.tokensOf_colon
  have hcolon : Written ":" [.leaf ⟨.colon, ":"⟩] := .of_token hlex (by decide)
  have hseparates : ∀ rest, Separates ((":" ++ (" " ++ p.written.text)).toList ++ rest) := by
    intro rest
    rw [String.toList_append, List.append_assoc]
    exact .of_mem (by decide) _
  -- each part separates the one in front of it from what follows
  have hnames := p.written_names.append (hcolon.spaced p.written.spells) fun rest _ => hseparates rest
  have hparts := (hnames.append p.written_dots fun _ => p.separates_dots).append p.written_default
    fun _ => p.separates_default
  have htext : p.text = p.namesText ++ (":" ++ (" " ++ p.written.text)) ++ p.dotsText ++ p.defaultText := by
    have hword : ": " = ":" ++ " " := rfl
    simp only [text, hword, String.append_assoc]
  rw [htext]
  refine ⟨p.snug, Written.node (hparts.congr ?_)⟩
  simp only [forestLeaves, forestLeaves_append, List.cons_append, List.nil_append, List.append_assoc]

end ParameterText

/-! ## Effects -/

theorem EffectText.written (e : EffectText) : Written e.text e.trees := by
  have hthrows : lex "throws" = [⟨.kwThrows, "throws"⟩] := Lexer.lex_word rfl rfl nofun
  cases e with
  | async =>
    have hlex : lex "async" = [⟨.ident, "async"⟩] := Lexer.lex_word rfl rfl nofun
    exact .of_token hlex (by decide)
  | throws => exact .of_token hthrows (by decide)
  | rethrows =>
    have hlex : lex "rethrows" = [⟨.kwRethrows, "rethrows"⟩] := Lexer.lex_word rfl rfl nofun
    exact .of_token hlex (by decide)
  | throwing type =>
    have hword : Written "throws" [.leaf ⟨.kwThrows, "throws"⟩] := .of_token hthrows (by decide)
    intro rest hrest
    have htext : (throwing type).text.toList ++ rest =
        "throws".toList ++ '(' :: (type.text.toList ++ ')' :: rest) := by simp [text]
    rw [htext, hword _ (.of_mem (by decide) _), TypeShape.tokensOf_lParen,
      type.spells.written _ (.of_mem (by decide) _), TypeShape.tokensOf_rParen]
    simp [trees, forestLeaves, leaves]

theorem EffectText.spells (e : EffectText) : Spells e.text (.node .effectSpecifiers e.trees) := by
  obtain ⟨u, us, hus, hu⟩ : ∃ u us, e.trees = u :: us ∧ u.isTriviaLeaf = false := by
    cases e <;> exact ⟨_, _, rfl, rfl⟩
  have hsnug := e.forms.snug
  refine ⟨?_, e.written.node⟩
  rw [hus] at hsnug ⊢
  exact hsnug.node hu

/-- The blanks stand between the effects, and one in front of them. -/
theorem forestLeaves_effectsTrees (e : EffectText) (es : List EffectText) :
    forestLeaves (effectsTrees (e :: es)) =
      ⟨.whitespace, " "⟩ :: (forestLeaves e.trees ++ forestLeaves (effectsTrees es)) := by
  cases es with
  | nil => simp [effectsTrees, spacedTrees, forestLeaves, leaves, blankTree]
  | cons e' es => simp [effectsTrees, spacedTrees, forestLeaves, forestLeaves_append, leaves, blankTree]

theorem separates_effects (es : List EffectText) {rest : List Char} (hrest : Separates rest) :
    Separates ((effectsText es).toList ++ rest) := by
  cases es with
  | nil => exact hrest
  | cons e es =>
    have htext : effectsText (e :: es) = " " ++ (e.text ++ effectsText es) := String.append_assoc ..
    rw [htext]
    exact .blank _ rest

theorem written_effects (es : List EffectText) : Written (effectsText es) (effectsTrees es) := by
  induction es with
  | nil => exact .nil
  | cons e es ih =>
    refine (e.spells.blank.append ih fun _ => separates_effects es).congr ?_
    rw [forestLeaves_effectsTrees]
    simp [forestLeaves, leaves, blankTree]

/-! ## Functions -/

namespace FunctionText

variable (f : FunctionText) {rest : List Char}

theorem written_output : Written f.outputText f.outputTrees := by
  rw [outputText, outputTrees]
  cases f.output with
  | none => exact .nil
  | some r =>
    have hlex : lex "->" = [⟨.arrow, "->"⟩] := Lexer.lex_operator rfl rfl (by decide)
    have harrow : Written "->" [.leaf ⟨.arrow, "->"⟩] := .of_token hlex (by decide)
    have hclause : Spells ("->" ++ (" " ++ r.text)) (TypeShape.returnTree r.tree) :=
      ⟨.node (.leaf rfl) (.trivia rfl (.cons r.forms.snug .nil)), (harrow.spaced r.spells).node⟩
    have htext : " -> " ++ r.text = " " ++ ("->" ++ (" " ++ r.text)) := by
      rw [← String.append_assoc, ← String.append_assoc]
      rfl
    show Written (" -> " ++ r.text) _
    rw [htext]
    exact hclause.blank

theorem separates_output (hrest : Separates rest) : Separates (f.outputText.toList ++ rest) := by
  rw [outputText]
  cases f.output with
  | none => exact hrest
  | some r => exact .blank ("-> " ++ r.text) rest

/-- The parameters in their parentheses. -/
theorem written_clause : Written ("(" ++ commaText (f.parameters.map ParameterText.text) ++ ")")
    [f.clauseTree] := by
  refine Written.node fun rest hrest => ?_
  have hparameters : Written (commaText (f.parameters.map ParameterText.text))
      (commaTrees (f.parameters.map ParameterText.tree)) :=
    written_comma fun p _ => p.spells
  have htext : ("(" ++ commaText (f.parameters.map ParameterText.text) ++ ")").toList ++ rest =
      '(' :: ((commaText (f.parameters.map ParameterText.text)).toList ++ ')' :: rest) := by simp
  rw [htext, TypeShape.tokensOf_lParen, hparameters _ (.of_mem (by decide) _),
    TypeShape.tokensOf_rParen]
  simp [forestLeaves, forestLeaves_append, leaves]

theorem written : Written f.text [f.tree] := by
  have hfunc : lex "func" = [⟨.kwFunc, "func"⟩] := Lexer.lex_word rfl rfl nofun
  have hbody : lex "\x7b\x7d" = [⟨.lBrace, "\x7b"⟩, ⟨.rBrace, "\x7d"⟩] := Lexer.tokensOf_braces
  have hword : Written "func" [.leaf ⟨.kwFunc, "func"⟩] := .of_token hfunc (by decide)
  have hblock : Spells "\x7b\x7d" (.node .codeBlock [.leaf ⟨.lBrace, "\x7b"⟩, .leaf ⟨.rBrace, "\x7d"⟩]) := by
    refine ⟨.node (.leaf rfl) (.cons (.leaf rfl) .nil), Written.node (.of_lex hbody ?_ ?_)⟩
    · rw [hbody]
      decide
    · rw [hbody]
      exact fun t ht => Option.some.inj ht ▸ ⟨by decide, by decide, by decide⟩
  have hname := hword.spaced f.name.spells
  have hclause := hname.append f.written_clause fun rest _ => by
    rw [String.append_assoc, String.toList_append, List.append_assoc]
    exact .of_mem (by decide) _
  have heffects := hclause.append (written_effects f.effects) fun _ => separates_effects f.effects
  have houtput := heffects.append f.written_output fun _ => f.separates_output
  have htext : f.text = "func" ++ (" " ++ f.name.text) ++
      ("(" ++ commaText (f.parameters.map ParameterText.text) ++ ")") ++ effectsText f.effects ++
        f.outputText ++ (" " ++ "\x7b\x7d") := by
    have hfront : "func " = "func" ++ " " := rfl
    have hend : " \x7b\x7d" = " " ++ "\x7b\x7d" := rfl
    simp only [text, hfront, hend, String.append_assoc]
  rw [htext]
  refine (houtput.spaced hblock).congr ?_
  simp only [tree, signatureTree, forestLeaves, forestLeaves_append, leaves, List.append_assoc,
    List.append_nil, List.cons_append, List.nil_append]

/-- The function is parsed without problems. -/
theorem parse_text : parse f.text = ⟨.node .sourceFile [f.tree], []⟩ := by
  have htokens := f.written [] .nil
  rw [List.append_nil, forestLeaves, forestLeaves, List.append_nil] at htokens
  exact Grammar.parse_of_function f.recovers_declaration f.snug rfl
    (htokens.trans (List.append_nil _))

end FunctionText

end SwiftOutline
