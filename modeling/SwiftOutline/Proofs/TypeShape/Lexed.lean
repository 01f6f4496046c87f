/-
  SwiftOutline.Proofs.TypeShape.Lexed

  A shape that is written is read back token by token. What stands behind it may
  be anything that continues neither a name nor a run of marks.
-/
import SwiftOutline.Proofs.Token.Spelling
import SwiftOutline.Proofs.TypeShape.Printable
import SwiftOutline.Proofs.Tree.Leaves

namespace SwiftOutline

open Lexer

/-! ## Words -/

theorem TokenKind.isNameLike_of_isArgumentLabel {k : TokenKind} (h : k.isArgumentLabel = true)
    (hne : k ≠ .underscore) : k.isNameLike = true := by
  cases k <;> first | rfl | exact absurd rfl hne | exact absurd h (by decide)

namespace IsPlainName

variable {n : String}

/-- A plain name begins like a name and goes on like one. -/
theorem exists_cons (h : IsPlainName n) :
    ∃ c w, n.toList = c :: w ∧ isNameStart c = true ∧ ∀ d ∈ w, isNameChar d = true := by
  have hascii := List.all_eq_true.mp h.ascii
  have hfirst := h.first
  cases hn : n.toList with
  | nil => simp [hn] at hfirst
  | cons c w =>
    rw [hn] at hascii hfirst
    refine ⟨c, w, rfl, ?_, fun d hd => ?_⟩
    · have hword := hascii c List.mem_cons_self
      have hdigit : c.isDigit = false := by simpa using hfirst
      simp only [isWordChar, Char.isAlphanum, hdigit, Bool.or_false, Bool.or_eq_true] at hword
      simp only [isNameStart, Bool.or_eq_true]
      exact Or.inl hword
    · exact isNameChar_of_isWordChar (hascii d (List.mem_cons_of_mem c hd))

/-- A plain name is one token. -/
theorem lex_eq (h : IsPlainName n) : lex n = [⟨.ident, n⟩] := by
  obtain ⟨c, w, hn, hc, hw⟩ := h.exists_cons
  have hname : String.ofList (c :: w) = n := by rw [← hn, String.ofList_toList]
  have htokens : tokensOf (c :: (w ++ [])) = _ :=
    tokensOf_word hc hw (by simp) (by rw [hname, h.ident]; decide)
  rw [List.append_nil, hname, h.ident, ← hn] at htokens
  exact htokens

end IsPlainName

/-! ## What may follow -/

/-- What stands behind a type: no character of a name, and of operator characters only marks. -/
structure Ends (rest : List Char) : Prop where
  name : ∀ d ∈ rest.head?, isNameChar d = false
  marks : MarksNext rest

/-- What stands behind a blank or an operator: neither a blank nor an operator character. -/
def Begins (s : List Char) : Prop :=
  ∃ c w, s = c :: w ∧ isBlank c = false ∧ isOperatorChar c = false

namespace Ends

variable {c : Char} {rest : List Char}

theorem nil : Ends [] := ⟨by simp, .of_head (by simp)⟩

theorem cons (hname : isNameChar c = false) (hop : isOperatorChar c = false) : Ends (c :: rest) :=
  ⟨by simpa using hname, .of_head (by simpa using hop)⟩

theorem mark (hc : Token.isMark c = true) (h : Ends rest) : Ends (c :: rest) := by
  refine ⟨?_, h.marks.cons hc⟩
  simp only [Token.isMark, Bool.or_eq_true, beq_iff_eq] at hc
  rcases hc with (rfl | rfl) | rfl <;> simp <;> decide

end Ends

namespace Begins

variable {s rest : List Char}

theorem append (h : Begins s) : Begins (s ++ rest) := by
  obtain ⟨c, w, rfl, hblank, hop⟩ := h
  exact ⟨c, w ++ rest, rfl, hblank, hop⟩

theorem isBlank (h : Begins s) : ∀ d ∈ s.head?, Lexer.isBlank d = false := by
  obtain ⟨c, w, rfl, hblank, -⟩ := h
  simpa using hblank

theorem isOperatorChar (h : Begins s) : ∀ d ∈ s.head?, Lexer.isOperatorChar d = false := by
  obtain ⟨c, w, rfl, -, hop⟩ := h
  simpa using hop

/-- A word begins with no blank and no operator character. -/
theorem of_lex {l : String} {k : TokenKind} (h : lex l = [⟨k, l⟩]) (hk : k.isNameLike = true) :
    Begins l.toList := by
  obtain ⟨c, w, hl, hc⟩ := exists_cons_of_lex h hk
  refine ⟨c, w, hl, ?_⟩
  rcases hc with hc | rfl | rfl
  · exact ⟨isBlank_of_isNameStart hc, isOperatorChar_of_isNameStart hc⟩
  · decide
  · decide

end Begins

/-! ## Texts that are read back -/

namespace TypeShape

variable {s s' n : String} {ts us : List Tree} {t u : Tree} {rest : List Char}

/-- Where a text stands in front of what does not continue it, it is read as the tokens of some
    trees. -/
def ReadsAs (s : String) (ts : List Tree) : Prop :=
  ∀ rest, Ends rest → tokensOf (s.toList ++ rest) = Tree.forestLeaves ts ++ tokensOf rest

theorem tokensOf_lParen : tokensOf ('(' :: rest) = ⟨.lParen, "("⟩ :: tokensOf rest :=
  tokensOf_punctuation (by decide)

theorem tokensOf_rParen : tokensOf (')' :: rest) = ⟨.rParen, ")"⟩ :: tokensOf rest :=
  tokensOf_punctuation (by decide)

theorem tokensOf_lBracket : tokensOf ('[' :: rest) = ⟨.lBracket, "["⟩ :: tokensOf rest :=
  tokensOf_punctuation (by decide)

theorem tokensOf_rBracket : tokensOf (']' :: rest) = ⟨.rBracket, "]"⟩ :: tokensOf rest :=
  tokensOf_punctuation (by decide)

theorem tokensOf_colon : tokensOf (':' :: rest) = ⟨.colon, ":"⟩ :: tokensOf rest :=
  tokensOf_punctuation (by decide)

theorem tokensOf_comma : tokensOf (',' :: rest) = ⟨.comma, ","⟩ :: tokensOf rest :=
  tokensOf_punctuation (by decide)

theorem tokensOf_atSign : tokensOf ('@' :: rest) = ⟨.atSign, "@"⟩ :: tokensOf rest :=
  tokensOf_punctuation (by decide)

theorem tokensOf_lt (h : Begins rest) : tokensOf ('<' :: rest) = ⟨.lt, "<"⟩ :: tokensOf rest :=
  tokensOf_operator (w := []) (by decide) (by simp) h.isOperatorChar (by decide)

theorem tokensOf_arrow : tokensOf ('-' :: '>' :: ' ' :: rest) = ⟨.arrow, "->"⟩ :: tokensOf (' ' :: rest) :=
  tokensOf_operator (w := ['>']) (by decide) (forall_mem_of_all (by decide)) (by simp; decide)
    (by decide)

theorem tokensOf_gt (h : Ends rest) : tokensOf ('>' :: rest) = ⟨.gt, ">"⟩ :: tokensOf rest :=
  tokensOf_mark (by decide) h.marks

theorem tokensOf_question (h : Ends rest) :
    tokensOf ('?' :: rest) = ⟨.question, "?"⟩ :: tokensOf rest :=
  tokensOf_mark (by decide) h.marks

/-- A word is read back in front of what does not continue it. -/
theorem tokensOf_ident (h : lex n = [⟨.ident, n⟩]) (hrest : ∀ d ∈ rest.head?, isNameChar d = false) :
    tokensOf (n.toList ++ rest) = ⟨.ident, n⟩ :: tokensOf rest :=
  tokensOf_append h (by decide) hrest

namespace ReadsAs

theorem marked (h : ReadsAs s [t]) (o : Bool) :
    ReadsAs (s ++ mark o) [markedTree o t] := by
  intro rest hrest
  cases o with
  | false => simpa [mark, markedTree] using h rest hrest
  | true =>
    have hmark : Ends ('?' :: rest) := hrest.mark (by decide)
    simp [mark, markedTree, Tree.forestLeaves, Tree.leaves, h _ hmark,
      tokensOf_question hrest]

theorem named (h : lex n = [⟨.ident, n⟩]) : ReadsAs n [namedTree n] := by
  intro rest hrest
  simp [namedTree, wordTree, Tree.forestLeaves, Tree.leaves,
    tokensOf_ident h hrest.name]

theorem generic (hn : lex n = [⟨.ident, n⟩]) (h : ReadsAs s [t]) (hs : Begins s.toList) :
    ReadsAs (n ++ "<" ++ s ++ ">") [genericTree n t] := by
  intro rest hrest
  have htext : (n ++ "<" ++ s ++ ">").toList ++ rest =
      n.toList ++ '<' :: (s.toList ++ '>' :: rest) := by simp
  rw [htext, tokensOf_ident hn (by simp; decide), tokensOf_lt hs.append,
    h _ (hrest.mark (by decide)), tokensOf_gt hrest]
  simp [genericTree, wordTree, Tree.forestLeaves, Tree.leaves]

theorem genericPair (hn : lex n = [⟨.ident, n⟩]) (h : ReadsAs s [t]) (hs : Begins s.toList)
    (h' : ReadsAs s' [u]) (hs' : Begins s'.toList) :
    ReadsAs (n ++ "<" ++ s ++ ", " ++ s' ++ ">") [genericPairTree n t u] := by
  intro rest hrest
  have htext : (n ++ "<" ++ s ++ ", " ++ s' ++ ">").toList ++ rest =
      n.toList ++ '<' :: (s.toList ++ ',' :: ' ' :: (s'.toList ++ '>' :: rest)) := by simp
  rw [htext, tokensOf_ident hn (by simp; decide), tokensOf_lt hs.append,
    h _ (.cons (by decide) (by decide)), tokensOf_comma, tokensOf_blank hs'.append.isBlank,
    h' _ (hrest.mark (by decide)), tokensOf_gt hrest]
  simp [genericPairTree, wordTree, blankTree, Tree.forestLeaves, Tree.leaves]

theorem array (h : ReadsAs s [t]) : ReadsAs ("[" ++ s ++ "]") [arrayTree t] := by
  intro rest hrest
  have htext : ("[" ++ s ++ "]").toList ++ rest = '[' :: (s.toList ++ ']' :: rest) := by simp
  rw [htext, tokensOf_lBracket, h _ (.cons (by decide) (by decide)), tokensOf_rBracket]
  simp [arrayTree, Tree.forestLeaves, Tree.leaves]

theorem dictionary (h : ReadsAs s [t]) (h' : ReadsAs s' [u]) (hs' : Begins s'.toList) :
    ReadsAs ("[" ++ s ++ ": " ++ s' ++ "]") [dictionaryTree t u] := by
  intro rest hrest
  have htext : ("[" ++ s ++ ": " ++ s' ++ "]").toList ++ rest =
      '[' :: (s.toList ++ ':' :: ' ' :: (s'.toList ++ ']' :: rest)) := by simp
  rw [htext, tokensOf_lBracket, h _ (.cons (by decide) (by decide)), tokensOf_colon,
    tokensOf_blank hs'.append.isBlank, h' _ (.cons (by decide) (by decide)), tokensOf_rBracket]
  simp [dictionaryTree, blankTree, Tree.forestLeaves, Tree.leaves]

theorem tuple (h : ReadsAs s ts) : ReadsAs ("(" ++ s ++ ")") [tupleTree ts] := by
  intro rest hrest
  have htext : ("(" ++ s ++ ")").toList ++ rest = '(' :: (s.toList ++ ')' :: rest) := by simp
  rw [htext, tokensOf_lParen, h _ (.cons (by decide) (by decide)), tokensOf_rParen]
  simp [tupleTree, Tree.forestLeaves, Tree.forestLeaves_append, Tree.leaves]

/-! ### Elements -/

/-- A type with dots behind it, if there are to be any. -/
theorem dotted (h : ReadsAs s [t]) (variadic : Bool) :
    ReadsAs (s ++ if variadic then "..." else "") (t :: dotTrees variadic) := by
  intro rest hrest
  cases variadic with
  | false => simpa [dotTrees] using h rest hrest
  | true =>
    have htext : (s ++ "...").toList ++ rest = s.toList ++ '.' :: '.' :: '.' :: rest := by simp
    rw [if_pos rfl, htext, h _ (.cons (by decide) (by decide)), tokensOf_ellipsis]
    simp [dotTrees, Tree.forestLeaves, Tree.leaves]

theorem labelled {l : String} (hl : IsLabel l) (h : ReadsAs s ts) (hs : Begins s.toList) :
    ReadsAs (l ++ ": " ++ s) (labelTrees (some l) ++ ts) := by
  intro rest hrest
  obtain ⟨k, hlex, hk, hne⟩ := hl
  have htext : (l ++ ": " ++ s).toList ++ rest = l.toList ++ ':' :: ' ' :: (s.toList ++ rest) := by
    simp
  rw [htext, tokensOf_append hlex (k.isNameLike_of_isArgumentLabel hk hne) (by simp; decide),
    tokensOf_colon, tokensOf_blank hs.append.isBlank, h rest hrest]
  simp [labelTrees, hlex, blankTree, Tree.forestLeaves, Tree.leaves]

/-- Two sequences with a comma between them. -/
theorem comma (h : ReadsAs s ts) (h' : ReadsAs s' us) (hs' : Begins s'.toList) :
    ReadsAs (s ++ ", " ++ s') (ts ++ .leaf ⟨.comma, ","⟩ :: blankTree :: us) := by
  intro rest hrest
  have htext : (s ++ ", " ++ s').toList ++ rest =
      s.toList ++ ',' :: ' ' :: (s'.toList ++ rest) := by simp
  rw [htext, h _ (.cons (by decide) (by decide)), tokensOf_comma,
    tokensOf_blank hs'.append.isBlank, h' rest hrest]
  simp [blankTree, Tree.forestLeaves, Tree.forestLeaves_append, Tree.leaves]

/-! ### Function types -/

theorem arrow (h : ReadsAs s ts) (h' : ReadsAs s' [u]) (hs' : Begins s'.toList) :
    ReadsAs (s ++ " -> " ++ s') (ts ++ [blankTree, returnTree u]) := by
  intro rest hrest
  have htext : (s ++ " -> " ++ s').toList ++ rest =
      s.toList ++ ' ' :: '-' :: '>' :: ' ' :: (s'.toList ++ rest) := by simp
  rw [htext, h _ (.cons (by decide) (by decide)), tokensOf_blank (by simp; decide),
    tokensOf_arrow, tokensOf_blank hs'.append.isBlank, h' rest hrest]
  simp [returnTree, blankTree, Tree.forestLeaves, Tree.forestLeaves_append, Tree.leaves]

theorem escaping (h : ReadsAs s [t]) (hs : Begins s.toList) (esc : Bool) :
    ReadsAs ((if esc then "@escaping " else "") ++ s) [escapingTree esc t] := by
  intro rest hrest
  cases esc with
  | false => simpa [escapingTree] using h rest hrest
  | true =>
    have hword : lex "escaping" = [⟨.ident, "escaping"⟩] := Lexer.lex_word rfl rfl nofun
    have htext : ("@escaping " ++ s).toList ++ rest =
        '@' :: ("escaping".toList ++ ' ' :: (s.toList ++ rest)) := by simp
    rw [if_pos rfl, htext, tokensOf_atSign, tokensOf_ident hword (by simp; decide),
      tokensOf_blank hs.append.isBlank, h rest hrest]
    simp [escapingTree, blankTree, wordTree, Tree.forestLeaves, Tree.leaves]

end ReadsAs

/-! ### Effects -/

theorem ends_blank : Ends ((" " ++ s).toList ++ rest) := by
  rw [String.toList_append]
  exact .cons (by decide) (by decide)

/-- `throws(Name)` is four tokens, whatever follows. -/
theorem tokensOf_throws (hn : IsPlainName n) :
    tokensOf (("throws(" ++ n ++ ")").toList ++ rest) =
      [⟨.kwThrows, "throws"⟩, ⟨.lParen, "("⟩, ⟨.ident, n⟩, ⟨.rParen, ")"⟩] ++ tokensOf rest := by
  have hword : lex "throws" = [⟨.kwThrows, "throws"⟩] := Lexer.lex_word rfl rfl nofun
  have htext : ("throws(" ++ n ++ ")").toList ++ rest =
      "throws".toList ++ '(' :: (n.toList ++ ')' :: rest) := by simp
  rw [htext, tokensOf_append hword (by decide) (by simp; decide), tokensOf_lParen,
    tokensOf_ident hn.lex_eq (by simp; decide), tokensOf_rParen]
  rfl

theorem lex_throws (hn : IsPlainName n) :
    lex ("throws(" ++ n ++ ")") =
      [⟨.kwThrows, "throws"⟩, ⟨.lParen, "("⟩, ⟨.ident, n⟩, ⟨.rParen, ")"⟩] := by
  have htokens : tokensOf (("throws(" ++ n ++ ")").toList ++ []) = _ := tokensOf_throws hn
  rwa [List.append_nil] at htokens

namespace ReadsAs

/-- A word that is a single token. -/
theorem word {k : TokenKind} (h : lex s = [⟨k, s⟩]) (hk : k.isNameLike = true) :
    ReadsAs s [.leaf ⟨k, s⟩] :=
  fun _ hrest => tokensOf_append h hk hrest.name

theorem spaced (h : ReadsAs s ts) (hs : Begins s.toList) :
    ReadsAs (" " ++ s) (blankTree :: ts) := by
  intro rest hrest
  have htext : (" " ++ s).toList ++ rest = ' ' :: (s.toList ++ rest) := by simp
  rw [htext, tokensOf_blank hs.append.isBlank, h rest hrest]
  rfl

/-- Two texts of which the second continues neither a name nor a run of marks. -/
theorem append (h : ReadsAs s ts) (h' : ReadsAs s' us)
    (hs' : ∀ rest, Ends rest → Ends (s'.toList ++ rest)) : ReadsAs (s ++ s') (ts ++ us) := by
  intro rest hrest
  rw [String.toList_append, List.append_assoc, h _ (hs' rest hrest), h' rest hrest,
    Tree.forestLeaves_append, List.append_assoc]

end ReadsAs

/-- The texts of `throws`, and their trees. -/
inductive Thrown : String → List Tree → Prop where
  | word {text : String} {k : TokenKind} (hlex : lex text = [⟨k, text⟩])
      (hk : k = .kwThrows ∨ k = .kwRethrows) : Thrown text [.leaf ⟨k, text⟩]
  | typed {n : String} (name : IsPlainName n) :
      Thrown ("throws(" ++ n ++ ")") [.leaf ⟨.kwThrows, "throws"⟩, .leaf ⟨.lParen, "("⟩,
        namedTree n, .leaf ⟨.rParen, ")"⟩]

theorem thrown {e : Effects} (he : e.Printable) :
    ∀ text ∈ e.throws, Thrown text (thrownTrees text) := by
  have hthrows : lex "throws" = [⟨.kwThrows, "throws"⟩] := Lexer.lex_word rfl rfl nofun
  have hrethrows : lex "rethrows" = [⟨.kwRethrows, "rethrows"⟩] := Lexer.lex_word rfl rfl nofun
  intro text htext
  obtain h | h | h | ⟨n, hn, h⟩ := he.throws
  · rw [h] at htext
    cases htext
  · rw [h] at htext
    obtain rfl := Option.some.inj htext
    rw [thrownTrees, hthrows]
    exact .word hthrows (.inl rfl)
  · rw [h] at htext
    obtain rfl := Option.some.inj htext
    rw [thrownTrees, hrethrows]
    exact .word hrethrows (.inr rfl)
  · rw [h] at htext
    obtain rfl := Option.some.inj htext
    rw [thrownTrees, lex_throws hn]
    exact .typed hn

namespace Thrown

variable {text : String}

theorem ne_nil (h : Thrown text ts) : ts ≠ [] := by
  cases h <;> simp

theorem readsAs (h : Thrown text ts) : ReadsAs text ts := by
  cases h with
  | word hlex hk => exact .word hlex (by rcases hk with rfl | rfl <;> decide)
  | typed name => exact fun rest _ => tokensOf_throws name

theorem begins (h : Thrown text ts) : Begins text.toList := by
  cases h with
  | word hlex hk => exact .of_lex hlex (by rcases hk with rfl | rfl <;> decide)
  | @typed n name =>
    exact ⟨'t', "hrows(".toList ++ n.toList ++ [')'], by simp, by decide, by decide⟩

end Thrown

theorem lex_async {e : Effects} (he : e.Printable) : ∀ a ∈ e.async, lex a = [⟨.ident, a⟩] := by
  intro a ha
  obtain h | h | h := he.async
  · rw [h] at ha
    cases ha
  · rw [h] at ha
    obtain rfl := Option.some.inj ha
    decide +kernel
  · rw [h] at ha
    obtain rfl := Option.some.inj ha
    decide +kernel

theorem effectTrees_of_ne_nil {e : Effects} (h : specifierTrees e ≠ []) :
    effectTrees e = [blankTree, .node .effectSpecifiers (specifierTrees e)] := by
  unfold effectTrees
  split
  · next hnil => exact absurd hnil h
  · rfl

/-- The effects of a function type, each behind a blank. -/
theorem readsAs_effects {e : Effects} (he : e.Printable) :
    ReadsAs (renderEffects e) (effectTrees e) := by
  have hasync := lex_async he
  have hthrown := thrown he
  have hnode : ∀ {s : String} {us : List Tree}, ReadsAs s (blankTree :: us) →
      ReadsAs s [blankTree, .node .effectSpecifiers us] := by
    intro s us h rest hrest
    simpa [Tree.forestLeaves, Tree.leaves] using h rest hrest
  obtain ⟨async, throws⟩ := e
  have hwords : ∀ a ∈ async, ReadsAs (" " ++ a) [blankTree, wordTree a] := fun a ha =>
    ReadsAs.spaced (.word (hasync a ha) (by decide)) (.of_lex (hasync a ha) (by decide))
  have hthrows : ∀ text ∈ throws, ReadsAs (" " ++ text) (blankTree :: thrownTrees text) :=
    fun text htext => (hthrown text htext).readsAs.spaced (hthrown text htext).begins
  cases async with
  | none =>
    cases throws with
    | none => exact fun rest _ => rfl
    | some text =>
      have hne : specifierTrees ⟨none, some text⟩ ≠ [] := (hthrown text rfl).ne_nil
      rw [effectTrees_of_ne_nil hne]
      simpa [renderEffects, specifierTrees] using hnode (hthrows text rfl)
  | some a =>
    cases throws with
    | none =>
      rw [effectTrees_of_ne_nil (by simp [specifierTrees])]
      simpa [renderEffects, specifierTrees] using hnode (hwords a rfl)
    | some text =>
      rw [effectTrees_of_ne_nil (by simp [specifierTrees])]
      simpa [renderEffects, specifierTrees] using
        hnode ((hwords a rfl).append (hthrows text rfl) fun _ _ => ends_blank)

theorem ends_effects (e : Effects) (h : Ends rest) : Ends ((renderEffects e).toList ++ rest) := by
  obtain ⟨async, throws⟩ := e
  cases async with
  | none =>
    cases throws with
    | none => exact h
    | some text =>
      have hblank : Ends ((" " ++ text).toList ++ rest) := ends_blank
      simpa [renderEffects] using hblank
  | some a => simpa [renderEffects] using ends_blank (s := a)

/-! ## Shapes -/

theorem renderParameter_eq (p : Parameter TypeShape) :
    renderParameter p = p.label.elim "" (· ++ ": ") ++
      (p.type.render ++ if p.isVariadic then "..." else "") := by
  obtain ⟨label, name, type, typeText, variadic, _, _, _, _⟩ := p
  cases label <;> simp [renderParameter, String.append_assoc]

/-- What is written begins with a word, a bracket or an `@`. -/
theorem Printable.begins {t : TypeShape} (h : Printable t) : Begins t.render.toList := by
  have hword : ∀ {n : String}, lex n = [⟨.ident, n⟩] → ∀ s : String, Begins (n ++ s).toList := by
    intro n hn s
    rw [String.toList_append]
    exact (Begins.of_lex hn (by decide)).append
  have hchar : ∀ (c : Char) (w : List Char), isBlank c = false → isOperatorChar c = false →
      Begins (c :: w) := fun c w hblank hop => ⟨c, w, rfl, hblank, hop⟩
  cases h with
  | void => simpa [render] using hchar 'V' _ (by decide) (by decide)
  | simple name _ _ => exact hword name.lex_eq _
  | @array t f o =>
    cases f
    · simpa [render] using hchar '[' _ (by decide) (by decide)
    · simpa [render] using hchar 'A' _ (by decide) (by decide)
  | @dictionary k v f o =>
    cases f
    · simpa [render] using hchar '[' _ (by decide) (by decide)
    · simpa [render] using hchar 'D' _ (by decide) (by decide)
  | set => simpa [render] using hchar 'S' _ (by decide) (by decide)
  | result => simpa [render] using hchar 'R' _ (by decide) (by decide)
  | tuple => simpa [render] using hchar '(' _ (by decide) (by decide)
  | @closure ps out e esc o =>
    cases esc
    · cases o
      · simpa [render] using hchar '(' _ (by decide) (by decide)
      · simpa [render] using hchar '(' _ (by decide) (by decide)
    · simpa [render] using hchar '@' _ (by decide) (by decide)

namespace ReadsAs

theorem element {p : Parameter TypeShape} (hlabel : ∀ l ∈ p.label, IsLabel l)
    (htype : Printable p.type) (h : ReadsAs p.type.render [p.type.tree]) :
    ReadsAs (renderParameter p) [elementTree p.label p.type.tree p.isVariadic] ∧
      Begins (renderParameter p).toList := by
  have hdotted : ReadsAs (p.type.render ++ if p.isVariadic then "..." else "")
      (p.type.tree :: dotTrees p.isVariadic) := h.dotted p.isVariadic
  have hbegins : Begins (p.type.render ++ if p.isVariadic then "..." else "").toList := by
    rw [String.toList_append]
    exact htype.begins.append
  have hnode : ∀ {s : String} {us : List Tree}, ReadsAs s us →
      ReadsAs s [.node .tupleTypeElement us] := by
    intro s us h rest hrest
    simpa [Tree.forestLeaves, Tree.leaves] using h rest hrest
  rw [renderParameter_eq, elementTree]
  cases hp : p.label with
  | none =>
    rw [Option.elim_none, String.empty_append]
    exact ⟨hnode hdotted, hbegins⟩
  | some l =>
    have hl : IsLabel l := hlabel l hp
    rw [Option.elim_some]
    refine ⟨hnode (hdotted.labelled hl hbegins), ?_⟩
    obtain ⟨k, hlex, hk, hne⟩ := hl
    rw [String.toList_append, String.toList_append, List.append_assoc]
    exact (Begins.of_lex hlex (k.isNameLike_of_isArgumentLabel hk hne)).append

/-- Elements with commas between them. -/
theorem elements {ps : List (Parameter TypeShape)} (hlabels : ∀ p ∈ ps, ∀ l ∈ p.label, IsLabel l)
    (htypes : ∀ p ∈ ps, Printable p.type)
    (h : ∀ p ∈ ps, ReadsAs p.type.render [p.type.tree]) :
    ReadsAs (renderAll ps) (elementTrees ps) ∧ (ps ≠ [] → Begins (renderAll ps).toList) := by
  induction ps with
  | nil => exact ⟨fun rest _ => rfl, fun hne => absurd rfl hne⟩
  | cons p ps ih =>
    obtain ⟨hlabel, hlabels⟩ := List.forall_mem_cons.mp hlabels
    obtain ⟨htype, htypes⟩ := List.forall_mem_cons.mp htypes
    obtain ⟨hp, hps⟩ := List.forall_mem_cons.mp h
    obtain ⟨hfirst, hbegins⟩ := element hlabel htype hp
    cases ps with
    | nil =>
      rw [renderAll, elementTrees]
      exact ⟨hfirst, fun _ => hbegins⟩
    | cons q ps =>
      obtain ⟨hrest, hnext⟩ := ih hlabels htypes hps
      rw [renderAll, elementTrees]
      refine ⟨hfirst.comma hrest (hnext (List.cons_ne_nil q ps)), fun _ => ?_⟩
      rw [String.toList_append, String.toList_append, List.append_assoc]
      exact hbegins.append

/-- A function type. -/
theorem function {i out : String} {es : List Tree} {e : Effects} (hi : ReadsAs i es)
    (he : e.Printable) (hout : ReadsAs out [u]) (hbegins : Begins out.toList) :
    ReadsAs ("(" ++ i ++ ")" ++ renderEffects e ++ " -> " ++ out) [functionTree es e u] := by
  have heffects : ReadsAs ("(" ++ i ++ ")" ++ renderEffects e) (tupleTree es :: effectTrees e) :=
    hi.tuple.append (readsAs_effects he) fun _ => ends_effects e
  intro rest hrest
  have harrow := heffects.arrow hout hbegins rest hrest
  simpa [functionTree, Tree.forestLeaves, Tree.leaves] using harrow

/-- A function type in parentheses, with a mark behind them. -/
theorem closure (h : ReadsAs s [t]) (o : Bool) :
    ReadsAs ((if o then "(" ++ s ++ ")" else s) ++ mark o) [closureTree o t] := by
  cases o with
  | false => simpa [closureTree, mark] using h
  | true =>
    have helement : ReadsAs s [elementTree none t false] := by
      intro rest hrest
      simpa [elementTree, labelTrees, dotTrees, Tree.forestLeaves, Tree.leaves] using h rest hrest
    exact helement.tuple.marked true

end ReadsAs

/-- A shape that is written is read as the tokens of its tree. -/
theorem readsAs_tree {t : TypeShape} (h : Printable t) : ReadsAs t.render [t.tree] := by
  have hvoid : lex "Void" = [⟨.ident, "Void"⟩] := Lexer.lex_word rfl rfl nofun
  have harray : lex "Array" = [⟨.ident, "Array"⟩] := Lexer.lex_word rfl rfl nofun
  have hdictionary : lex "Dictionary" = [⟨.ident, "Dictionary"⟩] := Lexer.lex_word rfl rfl nofun
  have hset : lex "Set" = [⟨.ident, "Set"⟩] := Lexer.lex_word rfl rfl nofun
  have hresult : lex "Result" = [⟨.ident, "Result"⟩] := Lexer.lex_word rfl rfl nofun
  induction h with
  | @void o => exact (ReadsAs.named hvoid).marked o
  | @simple n o name _ _ => exact (ReadsAs.named name.lex_eq).marked o
  | @array t f o element ih =>
    cases f with
    | bracket => exact ih.array.marked o
    | generic => exact (ReadsAs.generic harray ih element.begins).marked o
  | @dictionary k v f o key value ihkey ihvalue =>
    cases f with
    | bracket => exact (ihkey.dictionary ihvalue value.begins).marked o
    | generic =>
      exact (ReadsAs.genericPair hdictionary ihkey key.begins ihvalue value.begins).marked o
  | @set t o element ih => exact (ReadsAs.generic hset ih element.begins).marked o
  | @result s f o success failure ihsuccess ihfailure =>
    exact (ReadsAs.genericPair hresult ihsuccess success.begins ihfailure failure.begins).marked o
  | @tuple ps o _ labels types ih => exact (ReadsAs.elements labels types ih).1.tuple.marked o
  | @closure ps out e esc o labels types output effects ih ihout =>
    have hinput := (ReadsAs.elements labels types ih).1
    have hfunction := hinput.function effects ihout output.begins
    have hbegins : Begins ((if o then "(" ++ ("(" ++ renderAll ps ++ ")" ++ renderEffects e ++
        " -> " ++ out.render) ++ ")" else "(" ++ renderAll ps ++ ")" ++ renderEffects e ++
        " -> " ++ out.render) ++ mark o).toList := by
      cases o
      all_goals exact ⟨'(', _, by simp; rfl, by decide, by decide⟩
    have hread := (hfunction.closure o).escaping hbegins esc
    rw [← String.append_assoc] at hread
    exact hread

end TypeShape

end SwiftOutline
