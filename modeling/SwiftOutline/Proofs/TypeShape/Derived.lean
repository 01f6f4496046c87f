/-
  SwiftOutline.Proofs.TypeShape.Derived

  What is written for a shape is a type of the grammar. The lexemes of its tree
  derive the tree without its blanks, whatever gap stands before them.
-/
import SwiftOutline.Proofs.TypeExpr.Derivation
import SwiftOutline.Proofs.TypeShape.Lexed
import SwiftOutline.Proofs.Tree.Snug

namespace SwiftOutline

open Grammar SwiftOutline.Tree

theorem TokenKind.isTrivia_of_isArgumentLabel {k : TokenKind} (h : k.isArgumentLabel = true) :
    k.isTrivia = false := by
  cases k <;> first | rfl | exact absurd h (by decide)

/-! ## Lexemes one after the other -/

namespace Lexeme

theorem ofTokensAfter_append {gap last : Gap} {ts : List Token} {ls : List Lexeme}
    (h : ofTokensAfter gap ts = (ls, last)) (us : List Token) :
    ofTokensAfter gap (ts ++ us) =
      (ls ++ (ofTokensAfter last us).1, (ofTokensAfter last us).2) := by
  induction ts generalizing gap ls with
  | nil =>
    obtain ⟨rfl, rfl⟩ := Prod.mk.inj h
    rfl
  | cons t ts ih =>
    rw [ofTokensAfter] at h
    rw [List.cons_append, ofTokensAfter]
    cases ht : t.isTrivia with
    | true =>
      rw [ht, if_pos rfl] at h
      rw [if_pos rfl]
      exact ih h
    | false =>
      rw [ht, if_neg (by decide)] at h
      obtain ⟨rfl, rfl⟩ := Prod.mk.inj h
      rw [if_neg (by decide), ih (Prod.eta (ofTokensAfter .none ts)).symm]
      rfl

/-- Behind a blank no lexeme directly follows. -/
theorem seesJoined_ofTokensAfter {k : TokenKind} {gap : Gap} (h : gap.trivia = true)
    (ts : List Token) : Lookahead.seesJoined k (ofTokensAfter gap ts).1 = false := by
  induction ts generalizing gap with
  | nil => rfl
  | cons t ts ih =>
    rw [ofTokensAfter]
    split
    · exact ih rfl
    · simp [Lookahead.seesJoined, h]

@[simp] theorem ofTokensAfter_nil (gap : Gap) : ofTokensAfter gap [] = ([], gap) := rfl

theorem ofTokensAfter_cons {k : TokenKind} (hk : k.isTrivia = false) (gap : Gap) (text : String)
    (ts : List Token) :
    ofTokensAfter gap (⟨k, text⟩ :: ts) =
      (⟨k, text, gap⟩ :: (ofTokensAfter .none ts).1, (ofTokensAfter .none ts).2) := by
  rw [ofTokensAfter, if_neg (by simp [Token.isTrivia, hk])]

theorem ofTokensAfter_blank (ts : List Token) :
    ofTokensAfter .none (⟨.whitespace, " "⟩ :: ts) = ofTokensAfter ⟨true, false⟩ ts := rfl

end Lexeme

/-! ## Blanks -/

theorem Tree.forestLeaves_blank (ts : List Tree) :
    forestLeaves (TypeShape.blankTree :: ts) = ⟨.whitespace, " "⟩ :: forestLeaves ts := rfl

theorem Tree.forestWithoutTrivia_blank (ts : List Tree) :
    forestWithoutTrivia (TypeShape.blankTree :: ts) = forestWithoutTrivia ts := rfl

/-! ## Trees that are phrases -/

/-- A tree of lexemes: the lexemes of the tree, whatever gap stands before them, derive the tree
    without its trivia, and its trivia stand between its elements. -/
structure FormsTree (p : Phrase) (t : Tree) : Prop where
  snug : t.Snug
  derives : ∀ gap : Gap, ∃ ls, Lexeme.ofTokensAfter gap t.leaves = (ls, .none) ∧
    Derives true p ls [t.withoutTrivia]

/-- The same for a sequence of trees. -/
structure FormsForest (p : Phrase) (ts : List Tree) : Prop where
  snug : SnugForest ts
  derives : ∀ gap : Gap, ∃ ls, Lexeme.ofTokensAfter gap (forestLeaves ts) = (ls, .none) ∧
    Derives true p ls (forestWithoutTrivia ts)

open Lexeme TypeShape

variable {n : String} {ts us : List Tree} {t u : Tree} {p q : Phrase}

namespace FormsTree

/-- What follows from a phrase alone, such as that an operand is a type. -/
theorem imp (h : FormsTree p t) (himp : ∀ ls u, Derives true p ls [u] → Derives true q ls [u]) :
    FormsTree q t := by
  refine ⟨h.snug, fun gap => ?_⟩
  obtain ⟨ls, hls, hd⟩ := h.derives gap
  exact ⟨ls, hls, himp ls _ hd⟩

/-- An operand is a type. -/
theorem type {function : Bool} (h : FormsTree (.operand function) t) : FormsTree .type t :=
  h.imp fun _ _ hd => hd.type_of_operand

/-! ### Marks and names -/

theorem marked (h : FormsTree (.operand false) t) (o : Bool) :
    FormsTree (.operand false) (markedTree o t) := by
  cases o with
  | false => exact h
  | true =>
    refine ⟨.node h.snug (.cons (.leaf rfl) .nil), fun gap => ?_⟩
    obtain ⟨ls, hls, hd⟩ := h.derives gap
    have hmark := hd.optional (q := ⟨.question, "?", .none⟩) rfl rfl
    refine ⟨ls ++ [⟨.question, "?", .none⟩], ?_, ?_⟩
    · simp (disch := decide) [markedTree, forestLeaves, leaves, ofTokensAfter_append hls,
        ofTokensAfter_cons]
    · simpa [markedTree, withoutTrivia, forestWithoutTrivia, h.snug.isTriviaLeaf_eq,
        Token.isTrivia, TokenKind.isTrivia, Lexeme.leaf, Lexeme.token] using hmark

theorem named (hn : n ∉ typeSpecifiers ∧ n ≠ "some" ∧ n ≠ "any") :
    FormsTree (.operand false) (namedTree n) := by
  refine ⟨.node (.leaf rfl) .nil, fun gap => ?_⟩
  exact ⟨[⟨.ident, n, gap⟩], rfl, .operand_of_isTypeName (.inr ⟨rfl, hn⟩)⟩

/-- A name with generic arguments. -/
theorem generic (hn : n ∉ typeSpecifiers ∧ n ≠ "some" ∧ n ≠ "any")
    (h : FormsForest (.parts .genericArgument) ts) :
    FormsTree (.operand false) (.node .simpleType [wordTree n, .node .genericArgumentClause
      (.leaf ⟨.lt, "<"⟩ :: (ts ++ [Tree.leaf ⟨.gt, ">"⟩]))]) := by
  have hclose : SnugForest [.leaf ⟨.gt, ">"⟩] := .cons (.leaf rfl) .nil
  refine ⟨.node (.leaf rfl) (.cons (.node (.leaf rfl) (h.snug.append hclose)) .nil), fun gap => ?_⟩
  obtain ⟨ls, hls, hd⟩ := h.derives .none
  have harguments :=
    Derives.arguments (o := ⟨.lt, "<", .none⟩) (c := ⟨.gt, ">", .none⟩) rfl rfl hd rfl
  have hname := Derives.name (n := ⟨.ident, n, gap⟩) (.inr ⟨rfl, hn⟩) harguments .membersNil
  refine ⟨⟨.ident, n, gap⟩ :: ⟨.lt, "<", .none⟩ :: (ls ++ [⟨.gt, ">", .none⟩]), ?_, ?_⟩
  · simp (disch := decide) [wordTree, forestLeaves, forestLeaves_append, leaves,
      ofTokensAfter_append hls, ofTokensAfter_cons]
  · simpa [wordTree, withoutTrivia, forestWithoutTrivia, forestWithoutTrivia_append,
      Token.isTrivia, TokenKind.isTrivia, Lexeme.leaf, Lexeme.token] using hname.named

/-! ### Brackets -/

theorem array (h : FormsTree .type t) : FormsTree (.operand false) (arrayTree t) := by
  refine ⟨.node (.leaf rfl) (.cons h.snug (.cons (.leaf rfl) .nil)), fun gap => ?_⟩
  obtain ⟨ls, hls, hd⟩ := h.derives .none
  have harray := Derives.array (o := ⟨.lBracket, "[", gap⟩) (c := ⟨.rBracket, "]", .none⟩) rfl hd rfl
  refine ⟨⟨.lBracket, "[", gap⟩ :: (ls ++ [⟨.rBracket, "]", .none⟩]), ?_, ?_⟩
  · simp (disch := decide) [arrayTree, forestLeaves, leaves, ofTokensAfter_append hls,
      ofTokensAfter_cons]
  · simpa [arrayTree, withoutTrivia, forestWithoutTrivia, h.snug.isTriviaLeaf_eq, Token.isTrivia,
      TokenKind.isTrivia, Lexeme.leaf, Lexeme.token] using harray

theorem dictionary (h : FormsTree .type t) (h' : FormsTree .type u) :
    FormsTree (.operand false) (dictionaryTree t u) := by
  refine ⟨.node (.leaf rfl) (.cons h.snug (.cons (.leaf rfl) (.trivia rfl (.cons h'.snug
    (.cons (.leaf rfl) .nil))))), fun gap => ?_⟩
  obtain ⟨ls, hls, hd⟩ := h.derives .none
  obtain ⟨ms, hms, hd'⟩ := h'.derives ⟨true, false⟩
  have hdictionary := Derives.dictionary (o := ⟨.lBracket, "[", gap⟩) (a := ⟨.colon, ":", .none⟩)
    (c := ⟨.rBracket, "]", .none⟩) rfl hd rfl hd' rfl
  refine ⟨⟨.lBracket, "[", gap⟩ :: (ls ++ ⟨.colon, ":", .none⟩ :: (ms ++ [⟨.rBracket, "]", .none⟩])),
    ?_, ?_⟩
  · simp (disch := decide) [dictionaryTree, blankTree, forestLeaves, leaves,
      ofTokensAfter_append hls, ofTokensAfter_append hms, ofTokensAfter_cons, ofTokensAfter_blank]
  · simpa [dictionaryTree, blankTree, withoutTrivia, forestWithoutTrivia, h.snug.isTriviaLeaf_eq,
      h'.snug.isTriviaLeaf_eq, Token.isTrivia, TokenKind.isTrivia, Lexeme.leaf, Lexeme.token]
      using hdictionary

theorem unit : FormsTree .tuple (tupleTree []) := by
  refine ⟨.node (.leaf rfl) (.cons (.leaf rfl) .nil), fun gap => ?_⟩
  exact ⟨[⟨.lParen, "(", gap⟩, ⟨.rParen, ")", .none⟩], rfl, .unit rfl rfl⟩

theorem tuple (h : FormsForest (.parts .tupleElement) ts) : FormsTree .tuple (tupleTree ts) := by
  have hclose : SnugForest [.leaf ⟨.rParen, ")"⟩] := .cons (.leaf rfl) .nil
  refine ⟨.node (.leaf rfl) (h.snug.append hclose), fun gap => ?_⟩
  obtain ⟨ls, hls, hd⟩ := h.derives .none
  have htuple := Derives.tuple (o := ⟨.lParen, "(", gap⟩) (c := ⟨.rParen, ")", .none⟩) rfl hd rfl
  refine ⟨⟨.lParen, "(", gap⟩ :: (ls ++ [⟨.rParen, ")", .none⟩]), ?_, ?_⟩
  · simp (disch := decide) [tupleTree, forestLeaves, forestLeaves_append, leaves,
      ofTokensAfter_append hls, ofTokensAfter_cons]
  · simpa [tupleTree, withoutTrivia, forestWithoutTrivia, forestWithoutTrivia_append,
      Token.isTrivia, TokenKind.isTrivia, Lexeme.leaf, Lexeme.token] using htuple

end FormsTree

/-! ### Parts -/

namespace FormsForest

theorem imp (h : FormsForest p ts) (himp : ∀ ls us, Derives true p ls us → Derives true q ls us) :
    FormsForest q ts := by
  refine ⟨h.snug, fun gap => ?_⟩
  obtain ⟨ls, hls, hd⟩ := h.derives gap
  exact ⟨ls, hls, himp ls _ hd⟩

theorem single (h : FormsTree p t) : FormsForest p [t] := by
  refine ⟨.cons h.snug .nil, fun gap => ?_⟩
  obtain ⟨ls, hls, hd⟩ := h.derives gap
  refine ⟨ls, ?_, ?_⟩
  · rw [forestLeaves, forestLeaves, List.append_nil, hls]
  · rw [forestWithoutTrivia, h.snug.isTriviaLeaf_eq, if_neg (by decide), forestWithoutTrivia]
    exact hd

/-- The blank behind a comma or colon. -/
theorem snug_blank (h : SnugForest us) (hne : us ≠ []) : SnugForest (blankTree :: us) := by
  cases us with
  | nil => exact absurd rfl hne
  | cons u us => exact .trivia rfl h

theorem genericArgument (h : FormsTree .type t) :
    FormsForest (.part .genericArgument) [.node .genericArgument [t]] := by
  refine ⟨.cons (.node h.snug .nil) .nil, fun gap => ?_⟩
  obtain ⟨ls, hls, hd⟩ := h.derives gap
  refine ⟨ls, ?_, ?_⟩
  · simp [forestLeaves, leaves, hls]
  · simpa [withoutTrivia, forestWithoutTrivia, h.snug.isTriviaLeaf_eq] using hd.genericArgument

theorem comma {p : Part} (h : FormsForest (.part p) ts) (h' : FormsForest (.parts p) us)
    (hne : us ≠ []) :
    FormsForest (.parts p) (ts ++ .leaf ⟨.comma, ","⟩ :: blankTree :: us) := by
  refine ⟨h.snug.append (.cons (.leaf rfl) (snug_blank h'.snug hne)), fun gap => ?_⟩
  obtain ⟨ls, hls, hd⟩ := h.derives gap
  obtain ⟨ms, hms, hd'⟩ := h'.derives ⟨true, false⟩
  have hparts := hd.moreParts (a := ⟨.comma, ",", .none⟩) rfl hd'
  refine ⟨ls ++ ⟨.comma, ",", .none⟩ :: ms, ?_, ?_⟩
  · simp (disch := decide) [blankTree, forestLeaves, forestLeaves_append, leaves,
      ofTokensAfter_append hls, hms, ofTokensAfter_cons, ofTokensAfter_blank]
  · simpa [blankTree, withoutTrivia, forestWithoutTrivia, forestWithoutTrivia_append,
      Token.isTrivia, TokenKind.isTrivia, Lexeme.leaf, Lexeme.token] using hparts

/-! ### Elements -/

/-- A type with its label. -/
theorem labelled {label : Option String} (hlabel : ∀ l ∈ label, IsLabel l)
    (h : FormsTree .type t) : FormsForest .element (labelTrees label ++ [t]) := by
  cases label with
  | none => exact single (h.imp fun _ _ hd => .element hd)
  | some l =>
    obtain ⟨k, hlex, hk, hne⟩ := hlabel l rfl
    have htrivia : k.isTrivia = false := k.isTrivia_of_isArgumentLabel hk
    have hsnug : SnugForest [blankTree, t] := snug_blank (.cons h.snug .nil) (by simp)
    rw [labelTrees, hlex]
    refine ⟨.cons (.leaf htrivia) (.cons (.leaf rfl) hsnug), fun gap => ?_⟩
    obtain ⟨ls, hls, hd⟩ := h.derives ⟨true, false⟩
    have helement := Derives.labelled (l := ⟨k, l, gap⟩) (a := ⟨.colon, ":", .none⟩) hk rfl hd
    refine ⟨⟨k, l, gap⟩ :: ⟨.colon, ":", .none⟩ :: ls, ?_, ?_⟩
    · simp (disch := decide) [blankTree, forestLeaves, leaves, hls, ofTokensAfter_cons htrivia,
        ofTokensAfter_cons, ofTokensAfter_blank]
    · have hlabelled : Token.isTrivia ⟨k, l⟩ = false := htrivia
      have hcolon : Token.isTrivia ⟨.colon, ":"⟩ = false := rfl
      have hblank : Token.isTrivia ⟨.whitespace, " "⟩ = true := rfl
      simpa [blankTree, withoutTrivia, forestWithoutTrivia, h.snug.isTriviaLeaf_eq, hlabelled,
        hcolon, hblank, Lexeme.leaf, Lexeme.token] using helement

theorem element {label : Option String} (hlabel : ∀ l ∈ label, IsLabel l) (h : FormsTree .type t)
    (variadic : Bool) : FormsForest (.part .tupleElement) [elementTree label t variadic] := by
  have helement := labelled hlabel h
  obtain ⟨u, us, hus, hu⟩ : ∃ u us, labelTrees label ++ [t] = u :: us ∧ u.isTriviaLeaf = false := by
    cases label with
    | none => exact ⟨t, [], rfl, h.snug.isTriviaLeaf_eq⟩
    | some l =>
      obtain ⟨k, hlex, hk, -⟩ := hlabel l rfl
      exact ⟨.leaf ⟨k, l⟩, [.leaf ⟨.colon, ":"⟩, blankTree, t], by rw [labelTrees, hlex]; rfl,
        k.isTrivia_of_isArgumentLabel hk⟩
  have htree : elementTree label t variadic =
      .node .tupleTypeElement (u :: us ++ dotTrees variadic) := by
    rw [elementTree, ← hus, List.append_assoc]
    rfl
  rw [htree]
  rw [hus] at helement
  cases variadic with
  | false =>
    rw [dotTrees, if_neg (by decide), List.append_nil]
    refine ⟨.cons (helement.snug.node hu) .nil, fun gap => ?_⟩
    obtain ⟨ls, hls, hd⟩ := helement.derives gap
    refine ⟨ls, ?_, ?_⟩
    · simpa [forestLeaves, leaves] using hls
    · simpa [withoutTrivia, forestWithoutTrivia] using hd.plain
  | true =>
    rw [dotTrees, if_pos rfl]
    have hdots : SnugForest [.leaf ⟨.ellipsis, "..."⟩] := .cons (.leaf rfl) .nil
    have hsnug := helement.snug.append hdots
    refine ⟨.cons (hsnug.node hu) .nil, fun gap => ?_⟩
    obtain ⟨ls, hls, hd⟩ := helement.derives gap
    have hvariadic := hd.variadic (d := ⟨.ellipsis, "...", .none⟩) rfl
    refine ⟨ls ++ [⟨.ellipsis, "...", .none⟩], ?_, ?_⟩
    · rw [forestLeaves, leaves, forestLeaves, List.append_nil, forestLeaves_append,
        ofTokensAfter_append hls]
      rfl
    · rw [forestWithoutTrivia, isTriviaLeaf_node, if_neg (by decide), withoutTrivia,
        forestWithoutTrivia_append]
      exact hvariadic

/-- Elements with commas between them. -/
theorem elements {ps : List (Parameter TypeShape)} (hlabels : ∀ p ∈ ps, ∀ l ∈ p.label, IsLabel l)
    (h : ∀ p ∈ ps, FormsTree .type p.type.tree) (hne : ps ≠ []) :
    FormsForest (.parts .tupleElement) (elementTrees ps) := by
  induction ps with
  | nil => exact absurd rfl hne
  | cons p ps ih =>
    obtain ⟨hlabel, hlabels⟩ := List.forall_mem_cons.mp hlabels
    obtain ⟨hp, hps⟩ := List.forall_mem_cons.mp h
    have hfirst := element hlabel hp p.isVariadic
    cases ps with
    | nil =>
      rw [elementTrees]
      exact hfirst.imp fun _ _ hd => .lastPart hd
    | cons q ps =>
      rw [elementTrees]
      refine hfirst.comma (ih hlabels hps (List.cons_ne_nil q ps)) ?_
      cases ps <;> simp [elementTrees]

/-! ### Effects -/

theorem exists_first_of_thrown {text : String} (h : Thrown text ts) :
    ∃ u us, ts = u :: us ∧ u.isTriviaLeaf = false := by
  cases h with
  | word _ hk => exact ⟨_, _, rfl, by rcases hk with rfl | rfl <;> rfl⟩
  | typed _ => exact ⟨_, _, rfl, rfl⟩

/-- Specifiers begin with a word. -/
theorem exists_first_of_specifierTrees {e : Effects} (he : e.Printable)
    (hne : specifierTrees e ≠ []) :
    ∃ u us, specifierTrees e = u :: us ∧ u.isTriviaLeaf = false := by
  have hthrown := TypeShape.thrown he
  obtain ⟨async, throws⟩ := e
  cases async with
  | none =>
    cases throws with
    | none => exact absurd rfl hne
    | some text => exact exists_first_of_thrown (hthrown text rfl)
  | some a =>
    cases throws with
    | none => exact ⟨wordTree a, [], rfl, rfl⟩
    | some text => exact ⟨wordTree a, _, rfl, rfl⟩

/-- A single word that is an effect. -/
theorem effectWord {k : TokenKind} {text : String}
    (h : ∀ gap, Lexeme.IsEffect ⟨k, text, gap⟩) : FormsForest .effect [.leaf ⟨k, text⟩] := by
  have hk : k.isTrivia = false := by
    rcases h .none with h | h | h | h
    · exact congrArg TokenKind.isTrivia h.1
    · exact congrArg TokenKind.isTrivia h.1
    · exact congrArg TokenKind.isTrivia h
    · exact congrArg TokenKind.isTrivia h
  refine ⟨.cons (.leaf hk) .nil, fun gap => ⟨[⟨k, text, gap⟩], ?_, ?_⟩⟩
  · rw [forestLeaves, leaves, forestLeaves, List.append_nil, ofTokensAfter_cons hk]
    rfl
  · have hleaf : forestWithoutTrivia [.leaf ⟨k, text⟩] = [Lexeme.leaf ⟨k, text, gap⟩] := by
      simp [forestWithoutTrivia, withoutTrivia, Token.isTrivia, hk, Lexeme.leaf, Lexeme.token]
    rw [hleaf]
    exact .effect (h gap)

/-- `throws` with the type that is thrown. -/
theorem thrownType (h : FormsTree .type t) :
    FormsForest .effect [.leaf ⟨.kwThrows, "throws"⟩, .leaf ⟨.lParen, "("⟩, t,
      .leaf ⟨.rParen, ")"⟩] := by
  refine ⟨.cons (.leaf rfl) (.cons (.leaf rfl) (.cons h.snug (.cons (.leaf rfl) .nil))),
    fun gap => ?_⟩
  obtain ⟨ls, hls, hd⟩ := h.derives .none
  have hthrown := Derives.thrown (e := ⟨.kwThrows, "throws", gap⟩) (o := ⟨.lParen, "(", .none⟩)
    (c := ⟨.rParen, ")", .none⟩) (.inl rfl) rfl (fun _ => rfl) hd rfl
  refine ⟨⟨.kwThrows, "throws", gap⟩ :: ⟨.lParen, "(", .none⟩ :: (ls ++ [⟨.rParen, ")", .none⟩]),
    ?_, ?_⟩
  · simp (disch := decide) [forestLeaves, leaves, ofTokensAfter_append hls, ofTokensAfter_cons]
  · simpa [withoutTrivia, forestWithoutTrivia, h.snug.isTriviaLeaf_eq, Token.isTrivia,
      TokenKind.isTrivia, Lexeme.leaf, Lexeme.token] using hthrown

/-- An effect in front of others. -/
theorem moreEffects (h : FormsForest .effect ts) (h' : FormsForest .effects us) (hne : us ≠ []) :
    FormsForest .effects (ts ++ blankTree :: us) := by
  refine ⟨h.snug.append (snug_blank h'.snug hne), fun gap => ?_⟩
  obtain ⟨ls, hls, hd⟩ := h.derives gap
  obtain ⟨ms, hms, hd'⟩ := h'.derives ⟨true, false⟩
  refine ⟨ls ++ ms, ?_, ?_⟩
  · rw [forestLeaves_append, forestLeaves_blank, ofTokensAfter_append hls, ofTokensAfter_blank, hms]
  · rw [forestWithoutTrivia_append, forestWithoutTrivia_blank]
    exact hd.moreEffects hd'

theorem thrown {text : String} (h : Thrown text ts) : FormsForest .effect ts := by
  cases h with
  | word _ hk => exact effectWord fun _ => .inr (.inr hk)
  | typed name =>
    exact thrownType (FormsTree.named ⟨name.notSpecifier, name.notSome, name.notAny⟩).type

theorem asynchronous {e : Effects} (he : e.Printable) :
    ∀ a ∈ e.async, FormsForest .effect [wordTree a] := by
  intro a ha
  refine effectWord fun gap => ?_
  obtain h | h | h := he.async
  · rw [h] at ha
    cases ha
  · rw [h] at ha
    exact .inl ⟨rfl, (Option.some.inj ha).symm⟩
  · rw [h] at ha
    exact .inr (.inl ⟨rfl, (Option.some.inj ha).symm⟩)

theorem effects {e : Effects} (he : e.Printable) (hne : specifierTrees e ≠ []) :
    FormsForest .effects (specifierTrees e) := by
  have hasync := asynchronous he
  have hthrown := TypeShape.thrown he
  obtain ⟨async, throws⟩ := e
  cases async with
  | none =>
    cases throws with
    | none => exact absurd rfl hne
    | some text => exact (thrown (hthrown text rfl)).imp fun _ _ hd => .lastEffect hd
  | some a =>
    have hword := hasync a rfl
    cases throws with
    | none => exact hword.imp fun _ _ hd => .lastEffect hd
    | some text =>
      have hthrows := (thrown (hthrown text rfl)).imp fun _ _ hd => Derives.lastEffect hd
      exact hword.moreEffects hthrows (hthrown text rfl).ne_nil

end FormsForest

/-! ### Function types -/

namespace FormsTree

theorem returnClause (h : FormsTree .type t) :
    (returnTree t).Snug ∧ ∃ ls, ofTokensAfter ⟨true, false⟩ (returnTree t).leaves =
      (⟨.arrow, "->", ⟨true, false⟩⟩ :: ls, .none) ∧ Derives true .type ls [t.withoutTrivia] := by
  obtain ⟨ls, hls, hd⟩ := h.derives ⟨true, false⟩
  refine ⟨.node (.leaf rfl) (.trivia rfl (.cons h.snug .nil)), ls, ?_, hd⟩
  simp (disch := decide) [returnTree, blankTree, forestLeaves, leaves, hls, ofTokensAfter_cons,
    ofTokensAfter_blank]

theorem withoutTrivia_returnTree (h : t.isTriviaLeaf = false) (gap : Gap) :
    (returnTree t).withoutTrivia =
      .node .returnClause [Lexeme.leaf ⟨.arrow, "->", gap⟩, t.withoutTrivia] := by
  simp [returnTree, blankTree, withoutTrivia, forestWithoutTrivia, h, Token.isTrivia,
    TokenKind.isTrivia, Lexeme.leaf, Lexeme.token]

theorem function {e : Effects} (hinput : FormsTree .tuple (tupleTree ts)) (he : e.Printable)
    (hout : FormsTree .type t) : FormsTree (.operand true) (functionTree ts e t) := by
  obtain ⟨hreturn, ms, hms, hout'⟩ := hout.returnClause
  have htail : SnugForest [blankTree, returnTree t] := .trivia rfl (.cons hreturn .nil)
  have htuple := hinput.snug.isTriviaLeaf_eq
  have hclause := withoutTrivia_returnTree hout.snug.isTriviaLeaf_eq ⟨true, false⟩
  by_cases hne : specifierTrees e = []
  · have heffects : effectTrees e = [] := by rw [effectTrees, hne]
    rw [functionTree, heffects, List.nil_append]
    refine ⟨.node hinput.snug htail, fun gap => ?_⟩
    obtain ⟨ls, hls, hd⟩ := hinput.derives gap
    have hfunction := hd.function (a := ⟨.arrow, "->", ⟨true, false⟩⟩) rfl hout'
    refine ⟨ls ++ ⟨.arrow, "->", ⟨true, false⟩⟩ :: ms, ?_, ?_⟩
    · rw [leaves, forestLeaves, ofTokensAfter_append hls, forestLeaves_blank, ofTokensAfter_blank,
        forestLeaves, forestLeaves, List.append_nil, hms]
    · rw [← hclause] at hfunction
      rw [withoutTrivia, forestWithoutTrivia, htuple, if_neg (by decide), forestWithoutTrivia_blank]
      exact hfunction
  · have heffects := FormsForest.effects he hne
    obtain ⟨u, us, hus, hu⟩ := FormsForest.exists_first_of_specifierTrees he hne
    have hspecifiers : Snug (.node .effectSpecifiers (specifierTrees e)) := by
      have hsnug := heffects.snug
      rw [hus] at hsnug ⊢
      exact hsnug.node hu
    rw [functionTree, effectTrees_of_ne_nil hne]
    refine ⟨.node hinput.snug (.trivia rfl (.cons hspecifiers htail)), fun gap => ?_⟩
    obtain ⟨ls, hls, hd⟩ := hinput.derives gap
    obtain ⟨es, hes, hd'⟩ := heffects.derives ⟨true, false⟩
    have hfunction := hd.functionEffects (a := ⟨.arrow, "->", ⟨true, false⟩⟩) hd' rfl hout'
    refine ⟨ls ++ (es ++ ⟨.arrow, "->", ⟨true, false⟩⟩ :: ms), ?_, ?_⟩
    · show ofTokensAfter gap ((tupleTree ts).leaves ++ ⟨.whitespace, " "⟩ ::
        (forestLeaves (specifierTrees e) ++ ⟨.whitespace, " "⟩ :: ((returnTree t).leaves ++ []))) = _
      rw [ofTokensAfter_append hls, ofTokensAfter_blank, ofTokensAfter_append hes,
        ofTokensAfter_blank, List.append_nil, hms]
    · rw [← hclause] at hfunction
      rw [withoutTrivia, forestWithoutTrivia, htuple, if_neg (by decide)]
      exact hfunction

/-- A function type in parentheses, with a mark behind them. -/
theorem closure (h : FormsTree (.operand true) t) (o : Bool) :
    ∃ function, FormsTree (.operand function) (closureTree o t) := by
  cases o with
  | false => exact ⟨true, h⟩
  | true =>
    have helement : FormsForest (.part .tupleElement) [elementTree none t false] :=
      .element (by simp) h.type false
    have htuple := FormsTree.tuple (helement.imp fun _ _ hd => .lastPart hd)
    have hoperand : FormsTree (.operand false) (tupleTree [elementTree none t false]) :=
      htuple.imp fun _ _ hd => .tupled hd
    exact ⟨false, hoperand.marked true⟩

theorem escaping {function : Bool} (h : FormsTree (.operand function) t) (esc : Bool) :
    FormsTree .type (escapingTree esc t) := by
  cases esc with
  | false => exact h.type
  | true =>
    have hattribute : Snug (.node .attributeUse [.leaf ⟨.atSign, "@"⟩, wordTree "escaping"]) :=
      .node (.leaf rfl) (.cons (.leaf rfl) .nil)
    refine ⟨.node (.node hattribute .nil) (.trivia rfl (.cons h.snug .nil)), fun gap => ?_⟩
    obtain ⟨ls, hls, hd⟩ := h.derives ⟨true, false⟩
    have hfront : Derives true (.attributes false)
        [⟨.atSign, "@", gap⟩, ⟨.ident, "escaping", .none⟩] _ :=
      .oneAttribute rfl rfl .pathNil .argumentsNil .unapplied
    have hapart : Lookahead.seesJoined .lParen ls = false := by
      have hjoined : Lookahead.seesJoined .lParen (ofTokensAfter ⟨true, false⟩ t.leaves).1 = false :=
        seesJoined_ofTokensAfter rfl t.leaves
      rwa [hls] at hjoined
    have htype := Derives.attributed hfront (.bare (.composition (.single hd))) fun _ _ => hapart
    refine ⟨⟨.atSign, "@", gap⟩ :: ⟨.ident, "escaping", .none⟩ :: ls, ?_, ?_⟩
    · simp (disch := decide) [escapingTree, wordTree, blankTree, forestLeaves, leaves, hls,
        ofTokensAfter_cons, ofTokensAfter_blank]
    · simpa [escapingTree, wordTree, blankTree, withoutTrivia, forestWithoutTrivia,
        h.snug.isTriviaLeaf_eq, Token.isTrivia, TokenKind.isTrivia, Lexeme.leaf, Lexeme.token]
        using htype

/-- A generic type with one argument. -/
theorem genericOne (hn : n ∉ typeSpecifiers ∧ n ≠ "some" ∧ n ≠ "any") (h : FormsTree .type t) :
    FormsTree (.operand false) (genericTree n t) :=
  generic hn ((FormsForest.genericArgument h).imp fun _ _ hd => .lastPart hd)

/-- A generic type with two arguments. -/
theorem genericTwo (hn : n ∉ typeSpecifiers ∧ n ≠ "some" ∧ n ≠ "any") (h : FormsTree .type t)
    (h' : FormsTree .type u) : FormsTree (.operand false) (genericPairTree n t u) := by
  have hlast : FormsForest (.parts .genericArgument) [.node .genericArgument [u]] :=
    (FormsForest.genericArgument h').imp fun _ _ hd => .lastPart hd
  exact generic hn ((FormsForest.genericArgument h).comma hlast (by simp))

end FormsTree

/-! ## Shapes -/

/-- What is written for a shape is a type. -/
theorem TypeShape.Printable.forms {t : TypeShape} (h : Printable t) : FormsTree .type t.tree := by
  induction h with
  | @void o => exact ((FormsTree.named (by decide)).marked o).type
  | @simple n o name _ _ =>
    exact ((FormsTree.named ⟨name.notSpecifier, name.notSome, name.notAny⟩).marked o).type
  | @array t f o _ ih =>
    cases f with
    | bracket => exact (ih.array.marked o).type
    | generic => exact ((FormsTree.genericOne (by decide) ih).marked o).type
  | @dictionary k v f o _ _ ihkey ihvalue =>
    cases f with
    | bracket => exact ((ihkey.dictionary ihvalue).marked o).type
    | generic => exact ((FormsTree.genericTwo (by decide) ihkey ihvalue).marked o).type
  | @set t o _ ih => exact ((FormsTree.genericOne (by decide) ih).marked o).type
  | @result s f o _ _ ihsuccess ihfailure =>
    exact ((FormsTree.genericTwo (by decide) ihsuccess ihfailure).marked o).type
  | @tuple ps o several labels _ ih =>
    have hne : ps ≠ [] := by
      rintro rfl
      exact absurd several (by decide)
    have htuple := FormsTree.tuple (FormsForest.elements labels ih hne)
    have hoperand : FormsTree (.operand false) (tupleTree (elementTrees ps)) :=
      htuple.imp fun _ _ hd => .tupled hd
    exact (hoperand.marked o).type
  | @closure ps out e esc o labels _ _ effects ih ihout =>
    have hinput : FormsTree .tuple (tupleTree (elementTrees ps)) := by
      by_cases hne : ps = []
      · rw [hne]
        exact FormsTree.unit
      · exact FormsTree.tuple (FormsForest.elements labels ih hne)
    obtain ⟨function, hclosure⟩ := (hinput.function effects ihout).closure o
    exact hclosure.escaping esc

end SwiftOutline
