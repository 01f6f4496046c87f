/-
  SwiftOutline.Proofs.Tree.Trimmed

  Trimmed spans. A tidy node neither begins nor ends with trivia, so trimming
  leaves its span as it is; only the root of a tree can have blanks at its ends,
  and there the first token that is no trivia does not begin behind the last one.
-/
import SwiftOutline.Proofs.Outline.Ahead
import SwiftOutline.Proofs.Tree.Places

namespace SwiftOutline

theorem Token.totalSize_le_of_suffix {ts us : List Token} (h : ts <:+ us) :
    totalSize ts ≤ totalSize us := by
  obtain ⟨front, rfl⟩ := h
  rw [totalSize_append]
  exact Nat.le_add_left _ _

namespace Cursor

variable {t : Tree} {c x y : Cursor}

/-! ## Nodes of tidy trees -/

theorem isSome_nodeKind?_of_mem_nodes (h : x ∈ c.nodes) : x.tree.nodeKind?.isSome = true := by
  induction c using induction_elements with
  | h c ih =>
    rcases eq_or_exists_of_mem_nodes h with rfl | ⟨e, he, hx⟩
    · cases hk : x.tree.nodeKind? with
      | none =>
        rw [nodes_of_leaf hk] at h
        exact absurd h List.not_mem_nil
      | some k => rfl
    · exact ih e he hx

mutual

/-- A tree begins with its first token. -/
theorem start_of_firstTokenOf (t : Tree) {start : Nat} {above : List Frame}
    (h : firstTokenOf t start above = some x) : x.start = start := by
  cases t with
  | leaf u => exact Option.some.inj h ▸ rfl
  | node k children => exact start_of_firstTokenOfForest children h

theorem start_of_firstTokenOfForest (ts : List Tree) {k : NodeKind} {start : Nat}
    {above : List Frame} (h : firstTokenOfForest k start above ts = some x) : x.start = start := by
  cases ts with
  | nil => exact nomatch h
  | cons t ts => exact start_of_firstTokenOf t h

end

mutual

/-- A tree ends with its last token. -/
theorem stop_of_lastTokenOf (t : Tree) {start : Nat} {above : List Frame}
    (h : lastTokenOf t start above = some x) : x.start + x.tree.size = start + t.size := by
  cases t with
  | leaf u => exact Option.some.inj h ▸ rfl
  | node k children => exact stop_of_lastTokenOfForest children h

theorem stop_of_lastTokenOfForest (ts : List Tree) {k : NodeKind} {start offset : Nat}
    {above : List Frame} {before : List Tree}
    (h : lastTokenOfForest k start above before offset ts = some x) :
    x.start + x.tree.size = offset + Tree.forestSize ts := by
  match ts, h with
  | [t], h => exact stop_of_lastTokenOf t h
  | t :: t' :: ts, h =>
    rw [stop_of_lastTokenOfForest (t' :: ts) h, Tree.forestSize.eq_2 t, Nat.add_assoc]

end

/-- Nothing is trimmed off a tidy node. -/
theorem trimmedSpan_of_tidy (h : c.tree.Tidy) (hc : c.tree.nodeKind?.isSome = true) :
    c.trimmedSpan = c.span := by
  rw [trimmedSpan, firstSignificant?_eq h hc, lastSignificant?_eq h hc]
  split
  · next first last hfirst hlast =>
    have hstart := start_of_firstTokenOf _ hfirst
    have hstop := stop_of_lastTokenOf _ hlast
    rw [span, span, span, hstart, hstop]
  · rfl

/-- Nothing is trimmed off a node of a text but its root. -/
theorem trimmedSpan_of_mem_nodes {source : String}
    (hc : c ∈ (ofTree (parse source).tree).nodes) (habove : c.above ≠ []) :
    c.trimmedSpan = c.span :=
  trimmedSpan_of_tidy (.of_mem_nodes (tidy_of_mem_children_parse source) hc habove)
    (isSome_nodeKind?_of_mem_nodes hc)

/-! ## The order of the ends -/

/-- What a search finds is a token that is no trivia. -/
theorem exists_of_isSignificant (h : x.isSignificant = true) :
    ∃ u, x.IsAt u ∧ u.isTrivia = false := by
  obtain ⟨tree, start, above⟩ := x
  cases tree with
  | leaf u => exact ⟨u, rfl, by simpa [isSignificant, token?] using h⟩
  | node k children => exact absurd h Bool.false_ne_true

theorem isSignificant_of_seek {step : Cursor → Option Cursor} {n : Nat}
    (h : seek step n c = some x) : x.isSignificant = true := by
  induction n generalizing c with
  | zero => exact nomatch h
  | succ n ih =>
    rw [seek] at h
    split at h
    · next hc => exact Option.some.inj h ▸ hc
    · obtain ⟨d, -, hx⟩ := Option.bind_eq_some_iff.mp h
      exact ih hx

theorem isSignificant_of_firstSignificant? (h : c.firstSignificant? = some x) :
    x.isSignificant = true := by
  obtain ⟨d, -, hx⟩ := Option.bind_eq_some_iff.mp (Option.filter_eq_some_iff.mp h).1
  exact isSignificant_of_seek hx

theorem isSignificant_of_lastSignificant? (h : c.lastSignificant? = some x) :
    x.isSignificant = true := by
  obtain ⟨d, -, hx⟩ := Option.bind_eq_some_iff.mp (Option.filter_eq_some_iff.mp h).1
  exact isSignificant_of_seek hx

/-- A token that is no trivia does not begin behind the end of another place that has no such
    token behind it. -/
theorem start_le_stop_of_within (hx : Within t x) (hsignificant : x.isSignificant = true)
    (hy : Within t y) (hbehind : Token.significant y.behind = []) :
    x.start ≤ y.start + y.tree.size := by
  obtain ⟨u, hu, htrivia⟩ := exists_of_isSignificant hsignificant
  have htree : x.tree = .leaf u := hu
  have hxleaves : u :: x.behind <:+ t.leaves := by
    have hsuffix := hx.suffix
    rwa [htree] at hsuffix
  have hyleaves : y.behind <:+ t.leaves := (List.suffix_append _ _).trans hy.suffix
  have hxsum := hx.stop_add
  have hysum := hy.stop_add
  rcases List.suffix_or_suffix_of_suffix hxleaves hyleaves with h | h
  · -- else the token itself would stand behind `y`
    have hmem : u ∈ Token.significant y.behind :=
      List.mem_filter.mpr ⟨h.subset List.mem_cons_self, by simp [htrivia]⟩
    rw [hbehind] at hmem
    exact absurd hmem List.not_mem_nil
  · have hle := Token.totalSize_le_of_suffix h
    rw [Token.totalSize] at hle
    rw [htree, Tree.size] at hxsum
    omega

/-- The trimmed span of a node of a text lies within the span of the node, and its ends are in
    order. -/
theorem trimmedSpan_bounds {source : String} (hc : c ∈ (ofTree (parse source).tree).nodes) :
    c.span.start ≤ c.trimmedSpan.start ∧ c.trimmedSpan.start ≤ c.trimmedSpan.stop ∧
      c.trimmedSpan.stop ≤ c.span.stop := by
  by_cases habove : c.above = []
  · have hwithin := Within.root.of_mem_nodes hc
    rw [trimmedSpan]
    split
    · next first last hfirst hlast =>
      have hfirstin := (Option.filter_eq_some_iff.mp hfirst).2
      have hlastin := (Option.filter_eq_some_iff.mp hlast).2
      simp only [Span.contains, Bool.and_eq_true, decide_eq_true_eq] at hfirstin hlastin
      refine ⟨hfirstin.1, ?_, hlastin.2⟩
      have hend : Token.significant last.behind = [] := by
        rw [significant_behind_of_lastSignificant? hlast, behind, habove]
        rfl
      exact start_le_stop_of_within (hwithin.firstSignificant? hfirst)
        (isSignificant_of_firstSignificant? hfirst) (hwithin.lastSignificant? hlast) hend
    · exact ⟨Nat.le_refl _, Nat.le_add_right _ _, Nat.le_refl _⟩
  · rw [trimmedSpan_of_mem_nodes hc habove]
    exact ⟨Nat.le_refl _, Nat.le_add_right _ _, Nat.le_refl _⟩

end Cursor

end SwiftOutline
