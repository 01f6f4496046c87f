/-
  SwiftOutline.Proofs.Outline.Arguments

  Arguments of attributes and their labels. Arguments are runs of tokens: a
  program that makes no nodes and follows no rules adds nothing but tokens. The
  grammar takes a name in front of a colon for a label, and keeps no trace of that
  in the tree; the label is found again among the tokens of the argument.
-/
import SwiftOutline.Outline.Collect
import SwiftOutline.Proofs.Parser.Kinds
import SwiftOutline.Proofs.Tree.Everywhere
import SwiftOutline.Proofs.TypeShape.Apart

namespace SwiftOutline

namespace Tree

variable {k : NodeKind} {children : List Tree}

/-- An argument of an attribute is made of tokens. -/
def Flat (k : NodeKind) (children : List Tree) : Prop :=
  k = .attributeArgument → ∀ t ∈ children, t.nodeKind? = none

theorem flat_of_withoutTrivia (h : Flat k (forestWithoutTrivia children)) : Flat k children := by
  intro hk t ht
  rcases leaf_or_mem_forestWithoutTrivia ht with ⟨u, rfl⟩ | ht'
  · rfl
  · rw [← nodeKind?_withoutTrivia]
    exact h hk _ ht'

end Tree

namespace Parser

variable {α : Type} {call : Rule → State → Bool × State} {p : Parser α} {P : α → Prop}

theorem Adds.of_bare (h : Makes .bare p P) : Adds (fun t => t.nodeKind? = none) call p :=
  have hbare : (State.adding (fun t => t.nodeKind? = none) fun _ => rfl).Allows call .bare :=
    ⟨False.elim, False.elim⟩
  fun s => (hbare.run h s).1

end Parser

namespace Grammar

open SwiftOutline.Parser
open SwiftOutline.Tree (Flat)

variable {call : Rule → State → Bool × State}

/-- Everything is admitted but arguments of attributes that are more than tokens. -/
def flatForms : Forms where
  node adopt k body := k = .attributeArgument → adopt = false ∧ Makes .bare body fun _ => True
  rule _ := True

instance : HasItems flatForms where
  node h hk := by subst hk; exact absurd h (by decide)
  argument h _ := ⟨rfl, by simpa using h⟩
  name _ hk := nomatch hk
  specifiers hk := nomatch hk
  rule _ := trivial
  item h hk := by subst hk; exact absurd h (by decide)
  cases := trivial

instance : HasTypes flatForms where
  type h hk := by subst hk; exact absurd h (by decide)

instance : Adopts flatForms := ⟨trivial⟩

instance : HasBlocks flatForms where
  block hk := nomatch hk

/-- What all rules do to arguments of attributes. -/
def keepingFlat : Parser.Kept :=
  State.keepingEverywhere Flat (· ≠ .attributeArgument) fun _ _ hk hargument =>
    absurd hargument hk

theorem allows_flatForms (hcall : ∀ r s, keepingFlat.rel s (call r s).2) :
    keepingFlat.Allows call flatForms where
  node {_ _ _ _ s} hnode hbody hs := by
    refine hs.finish (hbody (hs.start _)) fun k' hk' hargument t ht => ?_
    obtain rfl := Option.some.inj hk'
    obtain ⟨rfl, hbare⟩ := hnode hargument
    exact (Adds.of_bare hbare (s.start false)).forall_built t (List.mem_reverse.mp ht)
  rule _ := hcall _

theorem keepsFlat_runRule (depth : Nat) (r : Rule) (s : State) :
    keepingFlat.rel s (runRule depth r s).2 := by
  induction depth generalizing r s with
  | zero => exact keepingFlat.refl s
  | succ depth ih => exact ((allows_flatForms ih).run (makes_body r) s).1

theorem flat_parseLexemes (lexemes : List Lexeme) (endGap : Gap) :
    (parseLexemes lexemes endGap).Everywhere Flat :=
  (allows_flatForms (keepsFlat_runRule _)).by (makes_file (P := fun _ => True) |>.mpr trivial) _
    (nofun : ∀ x ∈ [], Tree.Everywhere _ x)

end Grammar

/-- In the tree of a text, arguments of attributes have only tokens for children. -/
theorem flat_parse (source : String) : (parse source).tree.Everywhere Tree.Flat :=
  everywhere_parse (fun _ _ => Tree.flat_of_withoutTrivia) (fun _ => nofun)
    (Grammar.flat_parseLexemes _ _)

open Token (significant)

/-! ## Runs of tokens -/

theorem Tree.exists_tokens {ts : List Tree} (h : ∀ t ∈ ts, t.nodeKind? = none) :
    ∃ us : List Token, ts = us.map .leaf := by
  induction ts with
  | nil => exact ⟨[], rfl⟩
  | cons t ts ih =>
    obtain ⟨ht, hts⟩ := List.forall_mem_cons.mp h
    obtain ⟨us, rfl⟩ := ih hts
    cases t with
    | leaf u => exact ⟨u :: us, rfl⟩
    | node k children => exact nomatch ht

namespace Token

variable {us before after : List Token} {name colon first : Token} {rest : List Token}

/-- The text of tokens. -/
def joined (us : List Token) : String := String.join (us.map text)

/-- The tokens behind the first colon. -/
def behindColon (us : List Token) : List Token := (us.dropWhile fun u => u.kind != .colon).drop 1

/-- Where a colon is the second token that is no trivia, nothing but the first one stands in front
    of it, unless that is a colon itself. -/
theorem exists_split_colon (h : significant us = first :: colon :: rest)
    (hcolon : colon.kind = .colon) (hfirst : first.kind ≠ .colon) :
    ∃ before, us = before ++ colon :: behindColon us ∧ significant before = [first] := by
  have hsplit := List.takeWhile_append_dropWhile (p := fun u => u.kind != .colon) (l := us)
  have hfront : ∀ u ∈ us.takeWhile fun u => u.kind != .colon, u.kind ≠ .colon := by
    intro u hu
    simpa using List.all_eq_true.mp List.all_takeWhile u hu
  rw [behindColon]
  generalize us.takeWhile (fun u => u.kind != .colon) = front at hsplit hfront
  cases hback : us.dropWhile fun u => u.kind != .colon with
  | nil =>
    -- the colon would stand in front of itself
    rw [hback, List.append_nil] at hsplit
    subst hsplit
    have hmem : colon ∈ significant front := by simp [h]
    exact absurd hcolon (hfront colon (List.mem_of_mem_filter hmem))
  | cons c back =>
    have hc : c.kind = .colon := by
      have hhead := List.head?_dropWhile_not (fun u : Token => u.kind != .colon) us
      rw [hback] at hhead
      simpa using hhead
    rw [hback] at hsplit
    have hsignificant : significant us = significant front ++ c :: significant back := by
      rw [← hsplit, significant_append, significant, significant, significant,
        List.filter_cons_of_pos (by simp [isTrivia, hc, TokenKind.isTrivia])]
    rw [hsignificant] at h
    refine ⟨front, ?_⟩
    cases hs : significant front with
    | nil =>
      rw [hs, List.nil_append] at h
      exact absurd ((List.cons.inj h).1 ▸ hc) hfirst
    | cons a more =>
      rw [hs, List.cons_append] at h
      obtain ⟨rfl, hmore⟩ := List.cons.inj h
      cases more with
      | nil =>
        obtain ⟨rfl, -⟩ := List.cons.inj hmore
        exact ⟨hsplit.symm, rfl⟩
      | cons b more =>
        obtain ⟨rfl, -⟩ := List.cons.inj hmore
        have hmem : b ∈ significant front := by simp [hs]
        exact absurd hcolon (hfront b (List.mem_of_mem_filter hmem))

end Token

namespace Cursor

variable {c : Cursor} {k : NodeKind} {us : List Token}

theorem tree_of_isKind (h : c.isKind k = true) : c.tree = .node k c.tree.children := by
  have hkind := nodeKind?_of_isKind h
  cases htree : c.tree with
  | leaf t => rw [htree] at hkind; cases hkind
  | node k' children =>
    rw [htree] at hkind
    rw [Option.some.inj hkind, Tree.children]

theorem significantTokens_of_leaves (h : c.tree = .node k (us.map .leaf)) :
    c.significantTokens = significant us := by
  rw [significantTokens_eq, h, Tree.children, List.filterMap_map, significant,
    ← List.filterMap_eq_filter]
  refine List.filterMap_congr fun u _ => ?_
  rfl

theorem filterMap_tokensOfForest_leaves {start offset : Nat} {above : List Frame}
    {before : List Tree} :
    (tokensOfForest k start above before offset (us.map .leaf)).filterMap token? = us := by
  induction us generalizing before offset with
  | nil => rfl
  | cons u us ih =>
    rw [List.map_cons, tokensOfForest, tokensOf, List.singleton_append]
    exact congrArg (u :: ·) ih

theorem tokensIn_of_leaves (h : c.tree = .node k (us.map .leaf)) :
    c.tokensIn .sourceAccurate = significant us := by
  have hshown : ∀ t : Cursor, t.surroundedIn .sourceAccurate = true :=
    fun t => List.all_eq_true.mpr fun _ _ => rfl
  have htokens : c.tokens.filterMap token? = us := by
    rw [tokens, h, tokensOf, filterMap_tokensOfForest_leaves]
  rw [tokensIn, significant, ← htokens, List.filter_filterMap]
  refine List.filterMap_congr fun t _ => ?_
  rw [hshown, if_pos rfl]

theorem textAfter_of_leaves (h : c.tree = .node k (us.map .leaf)) :
    c.textAfter .colon = Token.joined (Token.behindColon us) := by
  have hback : ((c.elements.dropWhile fun e => !e.isToken .colon).drop 1).map tree =
      (Token.behindColon us).map .leaf := by
    have hchildren := map_tree_elements c
    rw [h, Tree.children] at hchildren
    rw [Token.behindColon, List.map_drop, List.map_drop]
    refine congrArg (List.drop 1) ?_
    have htest : (fun e : Cursor => !e.isToken .colon) =
        (fun t => !(ofTree t).isToken .colon) ∘ tree := rfl
    rw [htest, ← List.dropWhile_map, hchildren, List.dropWhile_map]
    rfl
  have htexts := congrArg (fun ts : List Tree => String.join (ts.map Tree.text)) hback
  simp only [List.map_map] at htexts
  rw [textAfter, Token.joined]
  refine htexts.trans (congrArg String.join (List.map_congr_left fun u _ => ?_))
  simp [Tree.text, Tree.leaves]

theorem description_of_leaves (h : c.tree = .node k (us.map .leaf)) :
    c.description = Text.trim (Token.joined us) := by
  rw [description, text, h, Tree.text, Tree.leaves, Tree.forestLeaves_map_leaf, Token.joined]

end Cursor

/-! ## Arguments -/

namespace AttributeArgument

variable {us : List Token} {first second : Token} {rest : List Token}

/-- What the tokens `us` of an argument give, told by the first two of them that are no trivia. -/
structure ReadFrom (us : List Token) (a : AttributeArgument) : Prop where
  /-- A name in front of a colon is the label, and what stands behind the colon is the value. -/
  labelled : ∀ name colon rest, significant us = name :: colon :: rest →
    name.kind.isNameLike = true → colon.kind = .colon →
      ∃ before after, us = before ++ colon :: after ∧ significant before = [name] ∧
        a = ⟨some name.text, Text.trim (Token.joined after)⟩
  /-- Without a colon in the second place there is no label. -/
  plain : (∀ first second rest, significant us = first :: second :: rest → second.kind ≠ .colon) →
    a = ⟨none, Text.trim (Token.joined us)⟩
  /-- Anything else in front of a colon is taken for a label, too. -/
  mistaken : ∀ first colon rest, significant us = first :: colon :: rest →
    first.kind.isNameLike = false → colon.kind = .colon →
      a = ⟨some first.text, Text.trim (Token.joined (Token.behindColon us))⟩

theorem ofCursor_of_colon {c : Cursor} {k : NodeKind} (hc : c.tree = .node k (us.map .leaf))
    (h : significant us = first :: second :: rest) (hsecond : second.kind = .colon) :
    ofCursor c = ⟨some first.text, Text.trim (Token.joined (Token.behindColon us))⟩ := by
  rw [ofCursor, c.tokensIn_of_leaves hc, h]
  simp only [hsecond, beq_self_eq_true, if_true, c.textAfter_of_leaves hc]

theorem ofCursor_of_no_colon {c : Cursor} {k : NodeKind} (hc : c.tree = .node k (us.map .leaf))
    (h : ∀ first second rest, significant us = first :: second :: rest → second.kind ≠ .colon) :
    ofCursor c = ⟨none, Text.trim (Token.joined us)⟩ := by
  rw [ofCursor, c.tokensIn_of_leaves hc]
  split
  · next first second rest hus =>
    rw [if_neg (by simpa using h first second rest hus), c.description_of_leaves hc]
  · rw [c.description_of_leaves hc]

end AttributeArgument

/-- An argument of an attribute is a run of tokens. If it begins with a name and a colon, it is
    read with the name as its label and what stands behind the colon as its value. If its second
    token is no colon, it is read as a value without label. The grammar sees no label either in
    what begins with a colon behind something that is no name, but then that is read as one. -/
theorem readFrom_of_argument {source : String} {c : Cursor}
    (hc : c ∈ (Cursor.ofTree (parse source).tree).nodes)
    (hk : c.isKind .attributeArgument = true) :
    ∃ us : List Token, c.tree.children = us.map .leaf ∧
      AttributeArgument.ReadFrom us (AttributeArgument.ofCursor c) := by
  have hflat : ∀ t ∈ c.tree.children, t.nodeKind? = none :=
    (flat_parse source).here_of_within (Cursor.Within.root.of_mem_nodes hc)
      (Cursor.nodeKind?_of_isKind hk) rfl
  obtain ⟨us, hus⟩ := Tree.exists_tokens hflat
  have htree : c.tree = .node .attributeArgument (us.map .leaf) := hus ▸ Cursor.tree_of_isKind hk
  refine ⟨us, hus, ?_, fun hno => ?_, fun first colon rest hfirst _ hcolon => ?_⟩
  · intro name colon rest hname hlike hcolon
    have hne : name.kind ≠ .colon := fun h => by rw [h] at hlike; exact nomatch hlike
    obtain ⟨before, hsplit, hbefore⟩ := Token.exists_split_colon hname hcolon hne
    exact ⟨before, Token.behindColon us, hsplit, hbefore,
      AttributeArgument.ofCursor_of_colon htree hname hcolon⟩
  · exact AttributeArgument.ofCursor_of_no_colon htree hno
  · exact AttributeArgument.ofCursor_of_colon htree hfirst hcolon

/-- The first argument is a value, the second one has a label. -/
theorem readFrom_of_argument_introduced :
    ∃ c ∈ (Cursor.ofTree (parse "@available(iOS, introduced: 13.0) func f()").tree).nodes,
      c.isKind .attributeArgument = true ∧
        (AttributeArgument.ofCursor c).label = some "introduced" := by
  have hfound : ((Cursor.ofTree (parse "@available(iOS, introduced: 13.0) func f()").tree).nodes.any
      fun c => c.isKind .attributeArgument &&
        (c.significantTokens.head?.any (fun name =>
          name.kind.isNameLike && name.text == "introduced") &&
        c.significantTokens.tail.head?.any fun colon => colon.kind == .colon)) = true := by
    decide +kernel
  obtain ⟨c, hc, hcond⟩ := List.any_eq_true.mp hfound
  rw [Bool.and_eq_true, Bool.and_eq_true] at hcond
  obtain ⟨hkind, hname, hcolon⟩ := hcond
  obtain ⟨us, hus, hread⟩ := readFrom_of_argument hc hkind
  have hsignificant : c.significantTokens = significant us :=
    Cursor.significantTokens_of_leaves (hus ▸ Cursor.tree_of_isKind hkind)
  rw [hsignificant] at hname hcolon
  obtain ⟨name, more, hus⟩ : ∃ name more, significant us = name :: more := by
    cases h : significant us with
    | nil => rw [h] at hname; cases hname
    | cons name more => exact ⟨name, more, rfl⟩
  obtain ⟨colon, rest, rfl⟩ : ∃ colon rest, more = colon :: rest := by
    cases more with
    | nil => rw [hus] at hcolon; cases hcolon
    | cons colon rest => exact ⟨colon, rest, rfl⟩
  rw [hus, List.head?_cons, Option.any_some, Bool.and_eq_true, beq_iff_eq] at hname
  rw [hus, List.tail_cons, List.head?_cons, Option.any_some, beq_iff_eq] at hcolon
  obtain ⟨_, _, -, -, heq⟩ := hread.labelled name colon rest hus hname.1 hcolon
  exact ⟨c, hc, hkind, by rw [heq, hname.2]⟩

/-- The bracket of an empty dictionary is taken for a label, in a text without problems. So a label
    need not be a name. -/
theorem readFrom_of_argument_dictionary :
    (parse "@A([:]) var x = 1").ok = true ∧
    ¬ ∀ c ∈ (Cursor.ofTree (parse "@A([:]) var x = 1").tree).nodes,
      c.isKind .attributeArgument = true →
        ((AttributeArgument.ofCursor c).label.isSome = true ↔
          ∃ name colon rest, c.significantTokens = name :: colon :: rest ∧
            name.kind.isNameLike = true ∧ colon.kind = .colon) := by
  have hfound : ((Cursor.ofTree (parse "@A([:]) var x = 1").tree).nodes.any fun c =>
      c.isKind .attributeArgument && ((AttributeArgument.ofCursor c).label.isSome &&
        !c.significantTokens.head?.any fun t => t.kind.isNameLike)) = true := by
    decide +kernel
  refine ⟨by decide +kernel, fun hall => ?_⟩
  obtain ⟨c, hc, hcond⟩ := List.any_eq_true.mp hfound
  simp only [Bool.and_eq_true, Bool.not_eq_true'] at hcond
  obtain ⟨hkind, hlabel, hfirst⟩ := hcond
  obtain ⟨name, colon, rest, htokens, hlike, -⟩ := (hall c hc hkind).mp hlabel
  rw [htokens, List.head?_cons, Option.any_some, hlike] at hfirst
  exact absurd hfirst.symm Bool.false_ne_true

end SwiftOutline
