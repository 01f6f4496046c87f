/-
  SwiftOutline.Proofs.Tree.Written

  Texts that are written for trees. In front of what does not continue it such a
  text is read as the tokens of the trees, so that texts are put together as the
  trees are.
-/
import SwiftOutline.Proofs.Parser.Recovers
import SwiftOutline.Proofs.Token.Joining
import SwiftOutline.Proofs.Tree.TriviaPlacement
import SwiftOutline.Proofs.TypeShape.Parenthesized

namespace SwiftOutline

open Lexer SwiftOutline.Tree
open TypeShape (blankTree)

namespace Lexer

variable {rest : List Char}

/-- Blanks, brackets, commas and colons separate. -/
theorem Separates.of_mem {c : Char} (hc : c ∈ " ,:()[]\x7b\x7d".toList) (rest : List Char) :
    Separates (c :: rest) := by
  have hall : ∀ c ∈ " ,:()[]\x7b\x7d".toList, isNameChar c = false ∧ isOperatorChar c = false ∧
      (c ≠ '"' ∧ c ≠ '#' ∧ c ≠ '/') ∧ c ≠ '.' := forall_mem_of_all (by decide)
  obtain ⟨hname, hop, hdelimiter, hpoint⟩ := hall c hc
  exact .cons hname hop hdelimiter hpoint rest

/-- Behind a blank anything stands apart. -/
theorem Separates.blank (s : String) (rest : List Char) :
    Separates ((" " ++ s).toList ++ rest) := by
  rw [String.toList_append, List.append_assoc]
  exact .of_mem (by decide) _

/-- A single point. -/
theorem tokensOf_point (h : ∀ d ∈ rest.head?, d ≠ '.') :
    tokensOf ('.' :: rest) = ⟨.dot, "."⟩ :: tokensOf rest := by
  have hpoint : point rest = (.dot, 0) := by
    rw [point] <;> rintro tail rfl <;> exact h '.' rfl rfl
  have htoken : token '.' rest = some (.dot, 0) := by
    rw [← hpoint]
    rfl
  exact tokensOf_single htoken (by decide)

end Lexer

/-! ## Tidy trees -/

namespace Tree

theorem SnugForest.last {ts : List Tree} (h : SnugForest ts) :
    ts.getLast?.all (fun t => !t.isTriviaLeaf) = true := by
  match ts, h with
  | [], .nil => rfl
  | [t], .cons first _ => simp [first.isTriviaLeaf_eq]
  | t :: t' :: ts, .cons _ rest => simpa using rest.last
  | .leaf b :: t :: ts, .trivia _ rest => simpa using rest.last

mutual

/-- Where trivia stand between two elements of a node they neither begin nor end it. -/
theorem Snug.tidy (t : Tree) (h : t.Snug) : t.Tidy := by
  match t, h with
  | .leaf u, .leaf _ => exact .leaf
  | .node k (t :: ts), .node first rest =>
    have hts : SnugForest (t :: ts) := .cons first rest
    obtain ⟨u, us, hleaves, hu⟩ := first.exists_first
    refine .node ?_ hts.last (hts.tidy)
    rw [forestLeaves, hleaves, List.cons_append]
    simpa using hu

theorem SnugForest.tidy (ts : List Tree) (h : SnugForest ts) : ∀ t ∈ ts, t.Tidy := by
  match ts, h with
  | [], .nil => simp
  | t :: ts, .cons first rest => exact List.forall_mem_cons.mpr ⟨first.tidy, rest.tidy⟩
  | .leaf b :: t :: ts, .trivia _ rest => exact List.forall_mem_cons.mpr ⟨.leaf, rest.tidy⟩

end

end Tree

/-! ## Written trees -/

/-- In front of what does not continue it, the text is read as the tokens of the trees. -/
def Written (s : String) (ts : List Tree) : Prop :=
  ∀ rest, Separates rest → tokensOf (s.toList ++ rest) = forestLeaves ts ++ tokensOf rest

/-- The text is written for a tree that trivia neither begin nor end. -/
structure Spells (s : String) (t : Tree) : Prop where
  snug : t.Snug
  written : Written s [t]

variable {s s' : String} {ts us : List Tree} {t u : Tree} {k : TokenKind} {rest : List Char}

namespace Written

theorem nil : Written "" [] := fun _ _ => rfl

theorem of_lex (h : lex s = forestLeaves ts) (hproper : ∀ t ∈ lex s, t.kind ≠ .error)
    (hlast : ∀ t ∈ (lex s).getLast?, Closed t) : Written s ts := by
  intro rest hrest
  rw [← h]
  exact tokensOf_append_of_separates hproper hlast hrest

/-- A text that is a single token. -/
theorem of_token (h : lex s = [⟨k, s⟩])
    (hk : k ∉ [TokenKind.error, .whitespace, .lineComment, .dot]) : Written s [.leaf ⟨k, s⟩] := by
  simp only [List.mem_cons, List.not_mem_nil, or_false, not_or] at hk
  obtain ⟨herror, hblank, hcomment, hdot⟩ := hk
  refine of_lex h ?_ ?_
  · rw [h]
    exact List.forall_mem_singleton.mpr herror
  · rw [h]
    exact fun t ht => Option.some.inj ht ▸ ⟨hblank, hcomment, hdot⟩

/-- Two texts, of which the second does not continue the first. -/
theorem append (h : Written s ts) (h' : Written s' us)
    (hs' : ∀ rest, Separates rest → Separates (s'.toList ++ rest)) :
    Written (s ++ s') (ts ++ us) := by
  intro rest hrest
  rw [String.toList_append, List.append_assoc, h _ (hs' rest hrest), h' rest hrest,
    forestLeaves_append, List.append_assoc]

/-- Which nodes stand around the tokens does not matter. -/
theorem congr (h : Written s ts) (hleaves : forestLeaves ts = forestLeaves us) : Written s us := by
  intro rest hrest
  rw [← hleaves]
  exact h rest hrest

theorem node {k : NodeKind} (h : Written s ts) : Written s [.node k ts] :=
  h.congr (by rw [forestLeaves, forestLeaves, List.append_nil, leaves])

end Written

namespace Spells

theorem of_token (h : lex s = [⟨k, s⟩]) (htrivia : k.isTrivia = false)
    (hk : k ∉ [TokenKind.error, .dot]) : Spells s (.leaf ⟨k, s⟩) := by
  refine ⟨.leaf htrivia, .of_token h fun hmem => ?_⟩
  cases k <;> simp_all [TokenKind.isTrivia]

/-- Such a text is not empty and does not begin with a blank. -/
theorem isBlank (h : Spells s t) (rest : List Char) :
    ∀ d ∈ (s.toList ++ rest).head?, isBlank d = false := by
  obtain ⟨u, us, hleaves, hu⟩ := h.snug.exists_first
  have htokens := h.written [] .nil
  rw [List.append_nil, forestLeaves, forestLeaves, List.append_nil, hleaves] at htokens
  have hfirst : ∀ d ∈ s.toList.head?, Lexer.isBlank d = false := by
    refine TypeShape.isBlank_of_head? fun x hx => ?_
    rw [htokens] at hx
    obtain rfl := Option.some.inj hx
    exact hu
  cases hs : s.toList with
  | nil =>
    rw [hs] at htokens
    cases htokens
  | cons c cs => rwa [hs] at hfirst

/-- The text of the tree is the text that is written for it. -/
theorem text_eq (h : Spells s t) : t.text = s := by
  have htokens := h.written [] .nil
  rw [List.append_nil, forestLeaves, forestLeaves, List.append_nil] at htokens
  have hleaves : lex s = t.leaves := htokens.trans (List.append_nil t.leaves)
  rw [Tree.text, ← hleaves, join_lex]

theorem node {k : NodeKind} (h : Spells s t) : Spells s (.node k [t]) :=
  ⟨.node h.snug .nil, h.written.node⟩

/-- Behind a blank. -/
theorem blank (h : Spells s t) : Written (" " ++ s) [blankTree, t] := by
  intro rest hrest
  have htext : (" " ++ s).toList ++ rest = ' ' :: (s.toList ++ rest) := by simp
  rw [htext, tokensOf_blank (h.isBlank rest), h.written rest hrest]
  rfl

end Spells

/-- Two texts with a blank between them. -/
theorem Written.spaced (h : Written s ts) (h' : Spells s' t) :
    Written (s ++ (" " ++ s')) (ts ++ [blankTree, t]) :=
  h.append h'.blank fun rest _ => .blank s' rest

/-! ### Lists -/

/-- Texts with commas between them. -/
def commaText : List String → String
  | [] => ""
  | [s] => s
  | s :: s' :: ss => s ++ ", " ++ commaText (s' :: ss)

/-- A list is written for trees with commas between them. -/
theorem written_comma {α : Type} {f : α → String} {g : α → Tree} {as : List α}
    (h : ∀ a ∈ as, Spells (f a) (g a)) : Written (commaText (as.map f)) (commaTrees (as.map g)) := by
  induction as with
  | nil => exact .nil
  | cons a as ih =>
    obtain ⟨ha, has⟩ := List.forall_mem_cons.mp h
    cases as with
    | nil => exact ha.written
    | cons b bs =>
      intro rest hrest
      obtain ⟨s', hs'⟩ : ∃ s', commaText ((b :: bs).map f) = f b ++ s' := by
        cases bs with
        | nil => exact ⟨"", by simp [commaText]⟩
        | cons b' bs => exact ⟨", " ++ commaText ((b' :: bs).map f), by simp [commaText, String.append_assoc]⟩
      have hblank : ∀ d ∈ ((commaText ((b :: bs).map f)).toList ++ rest).head?, isBlank d = false := by
        rw [hs', String.toList_append, List.append_assoc]
        exact (h b (by simp)).isBlank _
      have htext : (commaText ((a :: b :: bs).map f)).toList ++ rest = (f a).toList ++
          ',' :: ' ' :: ((commaText ((b :: bs).map f)).toList ++ rest) := by
        simp [commaText]
      rw [htext, ha.written _ (.of_mem (by decide) _), TypeShape.tokensOf_comma,
        tokensOf_blank hblank, ih has rest hrest]
      simp [commaTrees, forestLeaves, leaves, blankTree]

/-! ## Words and types -/

/-- A name. -/
structure Identifier where
  text : String
  lexed : lex text = [⟨.ident, text⟩]

namespace Identifier

/-- The token of a name. -/
def tree (n : Identifier) : Tree := .leaf ⟨.ident, n.text⟩

theorem spells (n : Identifier) : Spells n.text n.tree := .of_token n.lexed rfl (by decide)

end Identifier

/-- A type of the grammar, as it is written. -/
structure TypeText where
  text : String
  tree : Tree
  forms : FormsTree .type tree
  lexed : lex text = tree.leaves
  proper : ∀ t ∈ lex text, t.kind ≠ .error

namespace TypeText

theorem nodeKind?_tree (t : TypeText) : t.tree.nodeKind?.any NodeKind.isType = true :=
  TypeShape.isType_of_forms t.forms

theorem spells (t : TypeText) : Spells t.text t.tree := by
  refine ⟨t.forms.snug, .of_lex ?_ t.proper ?_⟩
  · rw [t.lexed, forestLeaves, forestLeaves, List.append_nil]
  · intro x hx
    obtain ⟨ls, hls, hd⟩ := t.forms.derives .none
    obtain ⟨us, u, hleaves, hu⟩ := t.forms.snug.exists_last
    have hsignificant := Lexeme.map_token_ofTokensAfter .none t.tree.leaves
    rw [hls] at hsignificant
    rw [t.lexed] at hx
    have htrivia : x.isTrivia = false := by
      rw [hleaves, List.getLast?_concat] at hx
      exact Option.some.inj hx ▸ hu
    obtain ⟨-, hdot⟩ := TypeShape.last_of_significant hd hsignificant hx htrivia
    refine ⟨?_, ?_, hdot⟩ <;> intro hk <;> rw [Token.isTrivia, hk] at htrivia <;>
      exact absurd htrivia (by decide)

end TypeText

end SwiftOutline
