/-
  SwiftOutline.Proofs.Tree.Over

  Trees over the lexemes that they are made of. A lexeme tells whether there are
  trivia before it, and weaving puts none anywhere else; so what all nodes are
  like over their lexemes tells what they are like with their trivia.
-/
import SwiftOutline.Proofs.Parser.Everywhere
import SwiftOutline.Proofs.Tree.Leaves

namespace SwiftOutline

namespace Tree

variable {P : NodeKind → List Tree → List Lexeme → Prop} {Q : NodeKind → List Tree → Prop}
  {t : Tree} {ts us : List Tree} {l : Lexeme} {ls ls' : List Lexeme}

/-! ## Trees and lexemes -/

mutual

/-- The leaves of a tree are the lexemes, and every node has the property, which tells of its kind,
    its children and the lexemes that it is made of. -/
inductive Over (P : NodeKind → List Tree → List Lexeme → Prop) : Tree → List Lexeme → Prop where
  | leaf {l : Lexeme} : Over P (.leaf l.token) [l]
  | node {k : NodeKind} {children : List Tree} {ls : List Lexeme} (here : P k children ls)
      (inside : OverAll P children ls) : Over P (.node k children) ls

/-- A sequence of such trees. -/
inductive OverAll (P : NodeKind → List Tree → List Lexeme → Prop) :
    List Tree → List Lexeme → Prop where
  | nil : OverAll P [] []
  | cons {t : Tree} {ts : List Tree} {ls ls' : List Lexeme} (first : Over P t ls)
      (rest : OverAll P ts ls') : OverAll P (t :: ts) (ls ++ ls')

end

theorem OverAll.append (h : OverAll P ts ls) (h' : OverAll P us ls') :
    OverAll P (ts ++ us) (ls ++ ls') := by
  induction ts generalizing ls with
  | nil =>
    cases h
    exact h'
  | cons t ts ih =>
    cases h with
    | cons first rest =>
      rw [List.append_assoc]
      exact .cons first (ih rest)

theorem OverAll.exists_append (h : OverAll P (ts ++ us) ls) :
    ∃ front back, ls = front ++ back ∧ OverAll P ts front ∧ OverAll P us back := by
  induction ts generalizing ls with
  | nil => exact ⟨[], ls, rfl, .nil, h⟩
  | cons t ts ih =>
    cases h with
    | @cons _ _ ls ls' first rest =>
      obtain ⟨front, back, rfl, hfront, hback⟩ := ih rest
      exact ⟨ls ++ front, back, (List.append_assoc ..).symm, .cons first hfront, hback⟩

theorem Over.single (h : Over P t ls) : OverAll P [t] ls := by
  have hsingle := OverAll.cons h .nil
  rwa [List.append_nil] at hsingle

/-- Lexemes as leaves. -/
def leavesOf (ls : List Lexeme) : List Tree := ls.map fun l => .leaf l.token

theorem overAll_leavesOf (P : NodeKind → List Tree → List Lexeme → Prop) (ls : List Lexeme) :
    OverAll P (leavesOf ls) ls := by
  induction ls with
  | nil => exact .nil
  | cons l ls ih => exact .cons .leaf ih

end Tree

/-! ## Tokens and lexemes -/

namespace Lexeme

open Token (isTrivia)

variable {g : Gap} {l : Lexeme} {ls more : List Lexeme} {tokens : List Token}

/-- `Covers ls tokens` says that the lexemes of the tokens are `ls`, whatever was seen before. -/
def Covers (ls : List Lexeme) (tokens : List Token) : Prop :=
  ∃ gap, (ofTokensAfter gap tokens).1 = ls

theorem covers_ofTokens (tokens : List Token) : Covers (ofTokens tokens).1 tokens := ⟨.none, rfl⟩

/-- Trivia have no lexemes. -/
theorem Covers.dropWhile (h : Covers ls tokens) : Covers ls (tokens.dropWhile isTrivia) := by
  induction tokens with
  | nil => exact h
  | cons t tokens ih =>
    cases ht : t.isTrivia with
    | false => rwa [List.dropWhile_cons_of_neg (by simp [ht])]
    | true =>
      obtain ⟨gap, hgap⟩ := h
      rw [ofTokensAfter, if_pos ht] at hgap
      rw [List.dropWhile_cons_of_pos ht]
      exact ih ⟨_, hgap⟩

/-- Behind no trivia stands the first lexeme. -/
theorem Covers.exists_cons (h : Covers (l :: ls) tokens)
    (hstart : tokens.dropWhile isTrivia = tokens) :
    ∃ rest, tokens = l.token :: rest ∧ l.token.isTrivia = false ∧ Covers ls rest := by
  obtain ⟨gap, hgap⟩ := h
  cases tokens with
  | nil => cases hgap
  | cons t tokens =>
    cases ht : t.isTrivia with
    | true =>
      have hlength := (List.dropWhile_suffix (l := tokens) isTrivia).length_le
      rw [List.dropWhile_cons_of_pos ht] at hstart
      rw [hstart, List.length_cons] at hlength
      omega
    | false =>
      rw [ofTokensAfter, if_neg (by simp [ht])] at hgap
      obtain ⟨rfl, hrest⟩ := List.cons.inj hgap
      exact ⟨tokens, rfl, ht, _, hrest⟩

/-- Before a lexeme without a gap there are no trivia. -/
theorem Covers.dropWhile_eq (h : Covers (l :: ls) tokens) (hl : l.gap.trivia = false) :
    tokens.dropWhile isTrivia = tokens := by
  obtain ⟨gap, hgap⟩ := h
  suffices hgaps : ∀ gap : Gap, gap.trivia = true → ∀ tokens : List Token,
      (ofTokensAfter gap tokens).1.head?.all (fun l => l.gap.trivia) = true by
    cases tokens with
    | nil => rfl
    | cons t tokens =>
      cases ht : t.isTrivia with
      | false => rw [List.dropWhile_cons_of_neg (by simp [ht])]
      | true =>
        rw [ofTokensAfter, if_pos ht] at hgap
        have hhead := hgaps (gap.extend t) rfl tokens
        rw [hgap] at hhead
        exact absurd (hl.symm.trans hhead) Bool.false_ne_true
  intro gap htrivia tokens
  induction tokens generalizing gap with
  | nil => rfl
  | cons t tokens ih =>
    rw [ofTokensAfter]
    split
    · exact ih (gap.extend t) rfl
    · exact htrivia

end Lexeme

namespace Tree

open Token (isTrivia)
open Lexeme (Covers)

variable {P : NodeKind → List Tree → List Lexeme → Prop} {Q : NodeKind → List Tree → Prop}
  {l : Lexeme} {ls more : List Lexeme} {tokens : List Token}

/-! ## Weaving -/

/-- Leaves without gaps between them are woven without trivia. -/
theorem weaveForest_leavesOf (h : Covers (ls ++ more) tokens)
    (hstart : tokens.dropWhile isTrivia = tokens) (hjoined : ∀ l ∈ ls.tail, l.gap.trivia = false) :
    (weaveForest (leavesOf ls) tokens).1 = leavesOf ls := by
  induction ls generalizing tokens with
  | nil => rfl
  | cons l ls ih =>
    obtain ⟨rest, rfl, hl, hrest⟩ := h.exists_cons hstart
    have hmore : (weaveForest (leavesOf ls) rest).1 = leavesOf ls := by
      cases ls with
      | nil => rfl
      | cons l' ls =>
        exact ih hrest (hrest.dropWhile_eq (hjoined l' List.mem_cons_self))
          fun l'' hl'' => hjoined l'' (List.mem_cons_of_mem l' hl'')
    rw [leavesOf, List.map_cons, weaveForest, hstart, leadingTrivia,
      List.takeWhile_cons_of_neg (by simp [hl]), weave]
    exact congrArg (Tree.leaf l.token :: ·) hmore

/-- What has the property `P` over its lexemes has the property `Q` when it has been woven from a
    sequence that begins with its first token. -/
def Weaves (P : NodeKind → List Tree → List Lexeme → Prop) (Q : NodeKind → List Tree → Prop) :
    Prop :=
  ∀ (k : NodeKind) (children : List Tree) (ls more : List Lexeme) (tokens : List Token),
    P k children ls → Covers (ls ++ more) tokens → tokens.dropWhile isTrivia = tokens →
      Q k (weaveForest children tokens).1

mutual

/-- What all nodes are like over their lexemes tells what they are like with trivia. -/
theorem everywhere_weave (hPQ : Weaves P Q) (t : Tree) {ls more : List Lexeme}
    {tokens : List Token} (ht : Over P t ls) (h : Covers (ls ++ more) tokens)
    (hstart : tokens.dropWhile isTrivia = tokens) :
    (∀ u ∈ (weave t tokens).1, u.Everywhere Q) ∧ Covers more (weave t tokens).2 := by
  match t, ht with
  | .leaf _, .leaf =>
    obtain ⟨rest, rfl, -, hrest⟩ := h.exists_cons hstart
    refine ⟨fun u hu => ?_, hrest⟩
    rw [weave, List.mem_singleton] at hu
    rw [hu]
    exact .leaf
  | .node k children, .node here inside =>
    obtain ⟨hforest, hrest⟩ := everywhere_weaveForest hPQ children inside h
    refine ⟨fun u hu => ?_, hrest⟩
    rw [weave, List.mem_singleton] at hu
    rw [hu]
    exact .node (hPQ k children ls more tokens here h hstart) hforest

theorem everywhere_weaveForest (hPQ : Weaves P Q) (ts : List Tree) {ls more : List Lexeme}
    {tokens : List Token} (hts : OverAll P ts ls) (h : Covers (ls ++ more) tokens) :
    (∀ u ∈ (weaveForest ts tokens).1, u.Everywhere Q) ∧ Covers more (weaveForest ts tokens).2 := by
  match ts, hts with
  | [], .nil => exact ⟨fun u hu => absurd hu List.not_mem_nil, h⟩
  | t :: ts, .cons first rest =>
    rw [List.append_assoc] at h
    obtain ⟨htree, hafter⟩ :=
      everywhere_weave hPQ t first h.dropWhile (Token.dropWhile_dropWhile tokens)
    obtain ⟨hforest, hlast⟩ := everywhere_weaveForest hPQ ts rest hafter
    rw [weaveForest]
    refine ⟨fun u hu => ?_, hlast⟩
    simp only [List.mem_append] at hu
    rcases hu with (hu | hu) | hu
    · obtain ⟨t', -, rfl⟩ := List.mem_map.mp hu
      exact .leaf
    · exact htree u hu
    · exact hforest u hu

end

/-- So it does of all that stands in a root. -/
theorem everywhere_rootWithTrivia {ts : List Tree} (hPQ : Weaves P Q) (hts : OverAll P ts ls)
    (h : Covers (ls ++ more) tokens) :
    ∀ u ∈ (rootWithTrivia ts tokens).children, u.Everywhere Q := by
  intro u hu
  rcases List.mem_append.mp hu with hu | hu
  · exact (everywhere_weaveForest hPQ ts hts h).1 u hu
  · obtain ⟨t, -, rfl⟩ := List.mem_map.mp hu
    exact .leaf

end Tree

end SwiftOutline
