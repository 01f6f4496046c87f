/-
  SwiftOutline.Proofs.Tree.Neighbors

  From token to token. A step to the next token leads to the first of the tokens
  behind, and a step back leaves one token more behind; so what a search for the
  next token that is no trivia finds is the first such token behind.
-/
import SwiftOutline.Proofs.Tree.Recovery

namespace SwiftOutline

namespace Cursor

variable {c d e : Cursor}

/-! ## Tokens behind an element -/

/-- The tokens behind what stands inside `above`. -/
def tokensBehind : (above : List Frame) → List Token
  | [] => []
  | f :: above => Tree.forestLeaves f.after ++ tokensBehind above

/-- The tokens behind an element, up to the end of the tree. -/
def behind (c : Cursor) : List Token := tokensBehind c.above

/-- The tokens of a text around an element. -/
theorem exists_leaves_of_mem_nodes {t : Tree} (hc : c ∈ (ofTree t).nodes) :
    ∃ before, t.leaves = before ++ (c.tree.leaves ++ c.behind) := by
  refine forall_mem_nodes (P := fun c => ∃ before, t.leaves = before ++ (c.tree.leaves ++ c.behind))
    ?_ ⟨[], by simp [ofTree, behind, tokensBehind]⟩ c hc
  rintro d ⟨before, hleaves⟩ e he
  obtain ⟨k, ts, u, us, htree, rfl⟩ := mem_elements.mp he
  refine ⟨before ++ Tree.forestLeaves ts, ?_⟩
  rw [hleaves, htree, Tree.leaves, Tree.forestLeaves_append, Tree.forestLeaves, behind, behind,
    tokensBehind]
  simp only [List.append_assoc]

/-- The element stands at the token `t`. -/
def IsAt (c : Cursor) (t : Token) : Prop := c.tree = .leaf t

mutual

/-- The first token of a tree is its first leaf, and the others stand behind it. -/
theorem exists_of_firstTokenOf (t : Tree) (start : Nat) (above : List Frame)
    (h : firstTokenOf t start above = some c) :
    ∃ u rest, c.IsAt u ∧ t.leaves = u :: rest ∧ c.behind = rest ++ tokensBehind above := by
  cases t with
  | leaf u =>
    obtain rfl := Option.some.inj h
    exact ⟨u, [], rfl, rfl, rfl⟩
  | node k children => exact exists_of_firstTokenOfForest k start above children h

theorem exists_of_firstTokenOfForest (k : NodeKind) (start : Nat) (above : List Frame)
    (ts : List Tree) (h : firstTokenOfForest k start above ts = some c) :
    ∃ u rest, c.IsAt u ∧ Tree.forestLeaves ts = u :: rest ∧
      c.behind = rest ++ tokensBehind above := by
  cases ts with
  | nil => exact nomatch h
  | cons t ts =>
    obtain ⟨u, rest, hc, hleaves, hbehind⟩ := exists_of_firstTokenOf t start _ h
    refine ⟨u, rest ++ Tree.forestLeaves ts, hc, ?_, ?_⟩
    · rw [Tree.forestLeaves, hleaves, List.cons_append]
    · rw [hbehind, tokensBehind, List.append_assoc]

end

mutual

/-- The last token of a tree is its last leaf. -/
theorem exists_of_lastTokenOf (t : Tree) (start : Nat) (above : List Frame)
    (h : lastTokenOf t start above = some c) :
    ∃ u front, c.IsAt u ∧ t.leaves = front ++ [u] ∧ c.behind = tokensBehind above := by
  cases t with
  | leaf u =>
    obtain rfl := Option.some.inj h
    exact ⟨u, [], rfl, rfl, rfl⟩
  | node k children => exact exists_of_lastTokenOfForest k start above [] start children h

theorem exists_of_lastTokenOfForest (k : NodeKind) (parentStart : Nat) (above : List Frame)
    (before : List Tree) (offset : Nat) (ts : List Tree)
    (h : lastTokenOfForest k parentStart above before offset ts = some c) :
    ∃ u front, c.IsAt u ∧ Tree.forestLeaves ts = front ++ [u] ∧
      c.behind = tokensBehind above := by
  match ts, h with
  | [t], h =>
    obtain ⟨u, front, hc, hleaves, hbehind⟩ := exists_of_lastTokenOf t offset _ h
    refine ⟨u, front, hc, ?_, hbehind⟩
    rw [Tree.forestLeaves, hleaves, Tree.forestLeaves, List.append_nil]
  | t :: t' :: ts, h =>
    obtain ⟨u, front, hc, hleaves, hbehind⟩ :=
      exists_of_lastTokenOfForest k parentStart above (t :: before) (offset + t.size) (t' :: ts) h
    refine ⟨u, t.leaves ++ front, hc, ?_, hbehind⟩
    rw [Tree.forestLeaves, hleaves, List.append_assoc]

end

/-! ## Steps -/

theorem tokensBehind_of_elementAfter {t : Tree} {start : Nat} {above : List Frame}
    (h : elementAfter t start above = some e) :
    tokensBehind above = e.tree.leaves ++ e.behind := by
  induction above generalizing t start with
  | nil => exact nomatch h
  | cons f above ih =>
    rw [elementAfter] at h
    split at h
    · next s rest hafter =>
      obtain rfl := Option.some.inj h
      rw [tokensBehind, hafter, Tree.forestLeaves, behind, tokensBehind, List.append_assoc]
    · next hafter => rw [tokensBehind, hafter, ih h, Tree.forestLeaves, List.nil_append]

theorem behind_of_elementBefore {t : Tree} {start : Nat} {above : List Frame}
    (h : elementBefore t start above = some e) :
    e.behind = t.leaves ++ tokensBehind above := by
  induction above generalizing t start with
  | nil => exact nomatch h
  | cons f above ih =>
    rw [elementBefore] at h
    split at h
    · next s rest hbefore =>
      obtain rfl := Option.some.inj h
      rw [behind, tokensBehind, Tree.forestLeaves, tokensBehind, List.append_assoc]
    · next hbefore =>
      rw [ih h, Frame.parent, hbefore, tokensBehind, ← List.append_assoc]
      rfl

/-- The next token is the first of those behind. -/
theorem exists_of_nextToken? (h : c.nextToken? = some d) :
    ∃ u, d.IsAt u ∧ c.behind = u :: d.behind := by
  obtain ⟨e, he, hd⟩ := Option.bind_eq_some_iff.mp h
  obtain ⟨u, rest, hu, hleaves, hbehind⟩ := exists_of_firstTokenOf _ _ _ hd
  refine ⟨u, hu, ?_⟩
  rw [behind, tokensBehind_of_elementAfter he, hleaves, hbehind]
  rfl

/-- The previous token has one more token behind it. -/
theorem exists_of_prevToken? {u : Token} (hc : c.IsAt u) (h : c.prevToken? = some d) :
    ∃ v, d.IsAt v ∧ d.behind = u :: c.behind := by
  obtain ⟨e, he, hd⟩ := Option.bind_eq_some_iff.mp h
  obtain ⟨v, front, hv, -, hbehind⟩ := exists_of_lastTokenOf _ _ _ hd
  refine ⟨v, hv, ?_⟩
  rw [hbehind]
  exact (behind_of_elementBefore he).trans (by rw [hc]; rfl)

/-! ## Searches -/

theorem IsAt.token?_eq {u : Token} (h : c.IsAt u) : c.token? = some u := by
  have htree : c.tree = .leaf u := h
  simp [token?, htree]

theorem isSignificant_of_isAt {u : Token} (h : c.IsAt u) : c.isSignificant = !u.isTrivia := by
  rw [isSignificant, h.token?_eq, Option.any_some]

/-- A search back from a token ends there or leaves trivia directly behind its result. -/
theorem of_seek_prevToken? {u : Token} {n : Nat} (hc : c.IsAt u)
    (h : seek prevToken? n c = some d) :
    d = c ∧ u.isTrivia = false ∨
      u.isTrivia = true ∧ ∃ t rest, d.behind = t :: rest ∧ t.isTrivia = true := by
  induction n generalizing c u with
  | zero => exact nomatch h
  | succ n ih =>
    rw [seek, isSignificant_of_isAt hc] at h
    cases hu : u.isTrivia with
    | false =>
      rw [hu] at h
      exact Or.inl ⟨(Option.some.inj h).symm, rfl⟩
    | true =>
      rw [hu] at h
      obtain ⟨e, he, hd⟩ := Option.bind_eq_some_iff.mp h
      obtain ⟨v, hv, hbehind⟩ := exists_of_prevToken? hc he
      rcases ih hv hd with ⟨rfl, -⟩ | ⟨-, hright⟩
      · exact Or.inr ⟨rfl, u, c.behind, hbehind, hu⟩
      · exact Or.inr ⟨rfl, hright⟩

/-- A search forward that begins at no trivia ends there. -/
theorem eq_of_seek {u : Token} {n : Nat} {step : Cursor → Option Cursor} (hc : c.IsAt u)
    (hu : u.isTrivia = false) (h : seek step n c = some d) : d = c := by
  cases n with
  | zero => exact nomatch h
  | succ n =>
    rw [seek, isSignificant_of_isAt hc, hu] at h
    exact (Option.some.inj h).symm

/-- Behind the last token of an element that is no trivia stands what stands behind the element, or
    trivia that the element ends with. -/
theorem exists_of_lastSignificant? (h : c.lastSignificant? = some d) :
    ∃ (u : Token) (front : List Token), c.tree.leaves = front ++ [u] ∧
      (u.isTrivia = false ∧ d.behind = c.behind ∨
        u.isTrivia = true ∧ ∃ t rest, d.behind = t :: rest ∧ t.isTrivia = true) := by
  obtain ⟨hseek, -⟩ := Option.filter_eq_some_iff.mp h
  obtain ⟨e, he, hed⟩ := Option.bind_eq_some_iff.mp hseek
  obtain ⟨u, front, hu, hleaves, hbehind⟩ := exists_of_lastTokenOf _ _ _ he
  refine ⟨u, front, hleaves, ?_⟩
  rcases of_seek_prevToken? hu hed with ⟨rfl, htrivia⟩ | hright
  · exact Or.inl ⟨htrivia, hbehind⟩
  · exact Or.inr hright

/-- The next token that is no trivia is the next token, unless that is trivia. -/
theorem exists_of_nextSignificant? (h : c.nextSignificant? = some e) :
    ∃ d v, c.nextToken? = some d ∧ d.IsAt v ∧ c.behind = v :: d.behind ∧
      (v.isTrivia = false → e = d) := by
  obtain ⟨d, hd, hde⟩ := Option.bind_eq_some_iff.mp h
  obtain ⟨v, hv, hbehind⟩ := exists_of_nextToken? hd
  exact ⟨d, v, hd, hv, hbehind, fun htrivia => eq_of_seek hv htrivia hde⟩

/-! ## Searches and what stands behind their results -/

/-- A search back from a token goes past trivia only. -/
theorem significant_behind_of_seek_prevToken? {u : Token} {n : Nat} (hc : c.IsAt u)
    (h : seek prevToken? n c = some d) :
    Token.significant d.behind = Token.significant c.behind := by
  induction n generalizing c u with
  | zero => exact nomatch h
  | succ n ih =>
    rw [seek, isSignificant_of_isAt hc] at h
    cases hu : u.isTrivia with
    | false =>
      rw [hu] at h
      rw [← Option.some.inj h]
    | true =>
      rw [hu] at h
      obtain ⟨e, he, hd⟩ := Option.bind_eq_some_iff.mp h
      obtain ⟨v, hv, hbehind⟩ := exists_of_prevToken? hc he
      rw [ih hv hd, hbehind, Token.significant, List.filter_cons_of_neg (by simp [hu])]
      rfl

/-- Behind the last token of an element that is no trivia come the same tokens as behind the
    element, trivia apart. -/
theorem significant_behind_of_lastSignificant? (h : c.lastSignificant? = some d) :
    Token.significant d.behind = Token.significant c.behind := by
  obtain ⟨hseek, -⟩ := Option.filter_eq_some_iff.mp h
  obtain ⟨e, he, hed⟩ := Option.bind_eq_some_iff.mp hseek
  obtain ⟨u, -, hu, -, hbehind⟩ := exists_of_lastTokenOf _ _ _ he
  exact (significant_behind_of_seek_prevToken? hu hed).trans (congrArg Token.significant hbehind)

/-- A search forward from a token finds the first one that is no trivia. -/
theorem exists_head_significant_of_seek_nextToken? {u : Token} {n : Nat} (hc : c.IsAt u)
    (h : seek nextToken? n c = some d) :
    ∃ v, d.IsAt v ∧ (Token.significant (u :: c.behind)).head? = some v := by
  induction n generalizing c u with
  | zero => exact nomatch h
  | succ n ih =>
    rw [seek, isSignificant_of_isAt hc] at h
    cases hu : u.isTrivia with
    | false =>
      rw [hu] at h
      obtain rfl := Option.some.inj h
      exact ⟨u, hc, by rw [Token.significant, List.filter_cons_of_pos (by simp [hu])]; rfl⟩
    | true =>
      rw [hu] at h
      obtain ⟨e, he, hd⟩ := Option.bind_eq_some_iff.mp h
      obtain ⟨v, hv, hbehind⟩ := exists_of_nextToken? he
      rw [Token.significant, List.filter_cons_of_neg (by simp [hu]), hbehind]
      exact ih hv hd

/-- The next token that is no trivia is the first such token behind the element. -/
theorem exists_head_significant_of_nextSignificant? (h : c.nextSignificant? = some d) :
    ∃ v, d.IsAt v ∧ (Token.significant c.behind).head? = some v := by
  obtain ⟨e, he, hed⟩ := Option.bind_eq_some_iff.mp h
  obtain ⟨v, hv, hbehind⟩ := exists_of_nextToken? he
  rw [hbehind]
  exact exists_head_significant_of_seek_nextToken? hv hed

end Cursor

end SwiftOutline
