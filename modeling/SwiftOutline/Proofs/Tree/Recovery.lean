/-
  SwiftOutline.Proofs.Tree.Recovery

  What the grammar sets aside is reported. The parser builds an `unexpected`
  node only right behind a report and never an empty one; it counts tokens
  without trivia, so it remains to find the node again in the tree with trivia,
  where it begins with the token that the report concerns.
-/
import SwiftOutline.Proofs.Tree.Clean
import SwiftOutline.Proofs.Tree.TriviaPlacement

namespace SwiftOutline

/-! ## Places of tokens -/

namespace Token

theorem significantSpans_append (ts : List Token) {t : Token} (us : List Token)
    (ht : t.isTrivia = false) :
    ∃ more, significantSpans (ts ++ t :: us) =
      significantSpans ts ++ ⟨totalSize ts, totalSize ts + t.size⟩ :: more := by
  refine ⟨((layout (totalSize ts + t.size) us).filter fun p => !p.2.isTrivia).map Prod.fst, ?_⟩
  rw [significantSpans, layout_append, Nat.zero_add, layout, List.filter_append, List.map_append,
    List.filter_cons_of_pos (by simp [ht]), List.map_cons, significantSpans]

/-- A token that is no trivia stands where the tokens before it end. -/
theorem placeOf_append (ts : List Token) {t : Token} (us : List Token)
    (ht : t.isTrivia = false) :
    placeOf (ts ++ t :: us) (significant ts).length =
      ⟨totalSize ts, totalSize ts + t.size⟩ := by
  obtain ⟨more, hspans⟩ := significantSpans_append ts us ht
  rw [placeOf, hspans, ← length_significantSpans]
  simp [List.getD]

end Token

/-! ## Trees without trivia -/

namespace Tree

open Token

mutual

/-- Without its trivia, a tree has the tokens that are none. -/
theorem leaves_withoutTrivia (t : Tree) (h : t.isTriviaLeaf = false) :
    t.withoutTrivia.leaves = significant t.leaves := by
  cases t with
  | leaf t =>
    have ht : t.isTrivia = false := h
    simp [withoutTrivia, leaves, significant, ht]
  | node k children =>
    rw [withoutTrivia, leaves, leaves]
    exact forestLeaves_forestWithoutTrivia children

theorem forestLeaves_forestWithoutTrivia (ts : List Tree) :
    forestLeaves (forestWithoutTrivia ts) = significant (forestLeaves ts) := by
  cases ts with
  | nil => rfl
  | cons t ts =>
    rw [forestWithoutTrivia, forestLeaves, significant_append]
    cases ht : t.isTriviaLeaf with
    | true =>
      have hleaf : significant t.leaves = [] := by
        cases t with
        | leaf t =>
          have ht' : t.isTrivia = true := ht
          simp [leaves, significant, ht']
        | node k children => exact nomatch ht
      rw [if_pos rfl, hleaf, List.nil_append]
      exact forestLeaves_forestWithoutTrivia ts
    | false =>
      rw [if_neg (by decide), forestLeaves, leaves_withoutTrivia t ht,
        forestLeaves_forestWithoutTrivia ts]

end

/-- What is set aside in a child is set aside in its parent. -/
theorem asides_subset_of_child {k : NodeKind} (ts : List Tree) (t : Tree) (us : List Tree)
    (behind : Nat) :
    asides t.withoutTrivia ((significant (forestLeaves us)).length + behind) ⊆
      asides (withoutTrivia (.node k (ts ++ t :: us))) behind := by
  intro a ha
  rw [withoutTrivia, asides]
  refine List.mem_append_right _ ?_
  rw [forestWithoutTrivia_append, forestAsides_append]
  refine List.mem_append_right _ ?_
  rw [forestWithoutTrivia]
  cases ht : t.isTriviaLeaf with
  | true =>
    cases t with
    | leaf t => exact absurd ha List.not_mem_nil
    | node k children => exact nomatch ht
  | false =>
    rw [if_neg (by decide), forestAsides, forestLeaves_forestWithoutTrivia]
    exact List.mem_append_left _ ha

end Tree

/-! ## Nodes between tokens -/

/-- Whether `c`, below `root`, has the tokens `before` in front of it and `after` behind it. What
    is set aside in it is then set aside in `root`, where more tokens follow it. -/
structure Cursor.Between (root c : Cursor) (before after : List Token) : Prop where
  leaves : root.tree.leaves = before ++ (c.tree.leaves ++ after)
  start : c.start = root.start + Token.totalSize before
  asides : c.tree.withoutTrivia.asides (Token.significant after).length ⊆
    root.tree.withoutTrivia.asides 0

namespace Cursor

variable {root c : Cursor}

theorem exists_between (h : c ∈ root.nodes) : ∃ before after, root.Between c before after := by
  refine forall_mem_nodes (P := fun c => ∃ before after, root.Between c before after) ?_ ?_ c h
  · rintro d ⟨before, after, hleaves, hstart, hasides⟩ e he
    obtain ⟨k, ts, t, us, htree, rfl⟩ := mem_elements.mp he
    -- the siblings of the child stand around it too
    rw [htree] at hleaves hasides
    refine ⟨before ++ Tree.forestLeaves ts, Tree.forestLeaves us ++ after, ?_, ?_, ?_⟩
    · rw [hleaves, Tree.leaves, Tree.forestLeaves_append, Tree.forestLeaves]
      simp only [List.append_assoc]
    · rw [Token.totalSize_append, ← Nat.add_assoc, ← hstart, Tree.forestSize_eq]
    · rw [Token.significant_append, List.length_append]
      exact List.Subset.trans (Tree.asides_subset_of_child ts t us _) hasides
  · exact ⟨[], [], by simp, by simp [Token.totalSize], List.Subset.refl _⟩

end Cursor

/-! ## Nodes set aside -/

/-- The parser leaves no lexeme. -/
theorem left_finalState (source : String) : (finalState (lex source)).left = 0 := by
  have hleads := Grammar.leads_parseLexemes (Lexeme.ofTokens (lex source)).1
    (Lexeme.ofTokens (lex source)).2
  have hlength : (Tree.forestLeaves (finalState (lex source)).built.reverse).length +
      (finalState (lex source)).left = (Lexeme.ofTokens (lex source)).1.length := by
    refine hleads.length_add_left.trans ?_
    simp [State.initial, Tree.forestLeaves, State.left]
  have hlexemes : (Lexeme.ofTokens (lex source)).1.length =
      (Token.significant (lex source)).length := by
    rw [← Lexeme.map_token_ofTokens, List.length_map]
  rw [forestLeaves_finalState fun _ ht => (proper_of_mem_lex ht).kind_ne_eof] at hlength
  omega

theorem sound_finalState (ts : List Token) : (finalState ts).Sound :=
  Grammar.sound_parseLexemes _ _

/-- What is set aside in the tree of a text has tokens, and a report was made where as many tokens
    were left. -/
theorem reported_of_mem_asides {source : String} {a : Aside}
    (h : a ∈ (parse source).tree.withoutTrivia.asides 0) :
    0 < a.size ∧ ∃ r ∈ (finalState (lex source)).reports, r.remaining = a.remaining := by
  refine (sound_finalState (lex source)).reported a ?_
  rw [left_finalState]
  rwa [withoutTrivia_parse, Tree.asides, if_neg (by decide), List.nil_append] at h

/-- A tidy tree with tokens that are no trivia begins with one of them. -/
theorem Tree.Tidy.exists_leaves {t : Tree} {k : NodeKind} (h : t.Tidy)
    (hk : t.nodeKind? = some k) (hsize : 0 < (Token.significant t.leaves).length) :
    ∃ u us, t.leaves = u :: us ∧ u.isTrivia = false := by
  cases h with
  | leaf => exact nomatch hk
  | @node _ children first _ _ =>
    cases hleaves : Tree.forestLeaves children with
    | nil =>
      rw [Tree.leaves, hleaves] at hsize
      exact absurd hsize (Nat.lt_irrefl 0)
    | cons u us =>
      rw [hleaves] at first
      exact ⟨u, us, hleaves, by simpa using first⟩

theorem Tree.mem_asides_of_unexpected {t : Tree} (hk : t.nodeKind? = some .unexpected)
    (behind : Nat) :
    ⟨(Token.significant t.leaves).length, (Token.significant t.leaves).length + behind⟩ ∈
      t.withoutTrivia.asides behind := by
  cases t with
  | leaf t => exact nomatch hk
  | node k children =>
    obtain rfl : k = .unexpected := Option.some.inj hk
    rw [Tree.withoutTrivia, Tree.asides, Tree.forestLeaves_forestWithoutTrivia, Tree.leaves]
    exact List.mem_append_left _ List.mem_cons_self

namespace Cursor

variable {source : String} {c : Cursor}

/-- Only the root of the tree of a text is a `sourceFile`. -/
theorem above_ne_nil_of_nodeKind? {k : NodeKind} (hc : c ∈ (ofTree (parse source).tree).nodes)
    (hk : c.tree.nodeKind? = some k) (hne : k ≠ .sourceFile) : c.above ≠ [] := by
  intro habove
  rcases eq_or_exists_of_mem_nodes hc with rfl | ⟨e, he, hce⟩
  · obtain ⟨children, hroot⟩ : ∃ children, (parse source).tree = .node .sourceFile children :=
      ⟨_, rfl⟩
    rw [ofTree, hroot] at hk
    exact hne (Option.some.inj hk).symm
  · have hdepth := length_above_le_of_mem_nodes hce
    rw [length_above_of_mem_elements he, habove] at hdepth
    exact absurd hdepth (Nat.not_succ_le_zero _)

/-- An `unexpected` node is not the root, and so it does not begin with trivia. -/
theorem tidy_of_unexpected (hc : c ∈ (ofTree (parse source).tree).nodes)
    (hk : c.tree.nodeKind? = some .unexpected) : c.tree.Tidy :=
  Tree.Tidy.of_mem_nodes (tidy_of_mem_children_parse source) hc
    (above_ne_nil_of_nodeKind? hc hk (by decide))

/-- A problem is found where an `unexpected` node begins, and the node is not empty. -/
theorem exists_diagnostic_of_unexpected (hc : c ∈ (ofTree (parse source).tree).nodes)
    (hunexpected : c.isKind .unexpected = true) :
    c.span.start < c.span.stop ∧
      ∃ d ∈ (parse source).diagnostics, d.span.start = c.span.start := by
  have hk := nodeKind?_of_isKind hunexpected
  obtain ⟨before, after, hleaves, hstart, hasides⟩ := exists_between hc
  -- the report was made where the tokens of the node and those behind it were left
  obtain ⟨hsize, r, hr, hremaining⟩ :=
    reported_of_mem_asides (hasides (Tree.mem_asides_of_unexpected hk _))
  -- the first token of the node is the one that the report concerns
  obtain ⟨t, us, hfirst, ht⟩ := (tidy_of_unexpected hc hk).exists_leaves hk hsize
  have htokens : lex source = before ++ t :: (us ++ after) := by
    rw [← leaves_parse, ← List.cons_append, ← hfirst]
    exact hleaves
  have hindex : r.tokenIndex (lex source) = (Token.significant before).length := by
    rw [Report.tokenIndex, htokens, ← List.cons_append, ← hfirst, Token.significant_append,
      Token.significant_append, List.length_append, List.length_append, hremaining,
      Nat.add_sub_cancel]
  have hplace : c.span.start = Token.totalSize before := by
    show c.start = _
    rw [hstart]
    exact Nat.zero_add _
  constructor
  · have hmem : t ∈ lex source := by simp [htokens]
    have hpos := Token.size_pos (proper_of_mem_lex hmem).text_ne
    show c.start < c.start + c.tree.size
    rw [Tree.size_eq, hfirst, Token.totalSize]
    omega
  · refine ⟨⟨r.problem, Token.placeOf (lex source) (r.tokenIndex (lex source))⟩, ?_, ?_⟩
    · rw [diagnostics_parse]
      exact List.mem_map_of_mem (List.mem_reverse.mpr hr)
    · rw [hindex, htokens, Token.placeOf_append before (us ++ after) ht, hplace]

/-- In the tree of a text without problems nothing is set aside. -/
theorem clean_parse (h : (parse source).ok = true) : (ofTree (parse source).tree).Clean := by
  refine ⟨fun c hc => ?_, fun f hf => absurd hf List.not_mem_nil⟩
  cases hk : c.isKind .unexpected with
  | false => rfl
  | true =>
    obtain ⟨-, d, hd, -⟩ := exists_diagnostic_of_unexpected hc hk
    rw [Parse.ok, List.isEmpty_iff] at h
    rw [h] at hd
    exact absurd hd List.not_mem_nil

end Cursor

/-! ## Parts of nodes -/

namespace Tree

theorem mem_forestWithoutTrivia {u : Tree} {ts : List Tree} :
    u ∈ forestWithoutTrivia ts ↔ ∃ t ∈ ts, t.isTriviaLeaf = false ∧ u = t.withoutTrivia := by
  simp [forestWithoutTrivia_eq, and_assoc, eq_comm (a := u)]

theorem eq_node_of_nodeKind? {t : Tree} {k : NodeKind} (h : t.nodeKind? = some k) :
    ∃ us, t = .node k us := by
  cases t with
  | leaf b => cases h
  | node k' us =>
    obtain rfl := Option.some.inj h
    exact ⟨us, rfl⟩

theorem nodeKind?_withoutTrivia (t : Tree) : t.withoutTrivia.nodeKind? = t.nodeKind? := by
  cases t <;> rfl

theorem eq_leaf_of_withoutTrivia {t : Tree} {u : Token} (h : t.withoutTrivia = .leaf u) :
    t = .leaf u := by
  cases t with
  | leaf b => exact h
  | node k children => cases h

/-- Trivia are no part of a node. -/
theorem Complete.of_withoutTrivia (t : Tree) (h : t.withoutTrivia.Complete) : t.Complete := by
  match t, h with
  | .leaf t, _ => exact .leaf
  | .node k children, .node part inside =>
    refine .node (fun p hp => ?_) fun t ht => ?_
    · obtain ⟨u, hu, hkind⟩ := part p hp
      obtain ⟨t, ht, -, rfl⟩ := mem_forestWithoutTrivia.mp hu
      exact ⟨t, ht, (nodeKind?_withoutTrivia t).symm.trans hkind⟩
    · cases htrivia : t.isTriviaLeaf with
      | true =>
        cases t with
        | leaf t => exact .leaf
        | node k' children' => exact nomatch htrivia
      | false =>
        exact of_withoutTrivia t (inside _ (mem_forestWithoutTrivia.mpr ⟨t, ht, htrivia, rfl⟩))

end Tree

/-- No node in the tree of a text lacks a part that it has to have. -/
theorem complete_parse (source : String) : (parse source).tree.Complete := by
  refine .of_withoutTrivia _ ?_
  rw [withoutTrivia_parse]
  refine .node (fun p hp => nomatch hp) fun t ht => ?_
  exact (sound_finalState (lex source)).complete t (List.mem_reverse.mp ht)

/-! ## Recovery -/

/-- What the grammar could not place is reported. In the tree of a text every `unexpected` node
    has some text, and a problem was found at the place where it begins. So there is no such node
    in the tree of a text in which no problem was found. -/
theorem unexpected_reported (source : String) :
    (∀ c ∈ (Cursor.ofTree (parse source).tree).nodes, c.isKind .unexpected = true →
      c.span.start < c.span.stop ∧
        ∃ d ∈ (parse source).diagnostics, d.span.start = c.span.start) ∧
    ((parse source).ok = true →
      ∀ c ∈ (Cursor.ofTree (parse source).tree).nodes, c.isKind .unexpected = false) := by
  constructor
  · intro c hc hk
    exact Cursor.exists_diagnostic_of_unexpected hc hk
  · intro hok
    exact (Cursor.clean_parse hok).inside

/-- A stray bracket is set aside and reported; where there is none, nothing is set aside. -/
theorem unexpected_reported_bracket :
    (∃ c ∈ (Cursor.ofTree (parse " ) let a = 1").tree).nodes, c.isKind .unexpected = true ∧
      c.span.start < c.span.stop ∧
        ∃ d ∈ (parse " ) let a = 1").diagnostics, d.span.start = c.span.start) ∧
    (parse " let a = 1").ok = true ∧
      ∀ c ∈ (Cursor.ofTree (parse " let a = 1").tree).nodes, c.isKind .unexpected = false := by
  have hfound : ((Cursor.ofTree (parse " ) let a = 1").tree).nodes.any fun c =>
      c.isKind .unexpected) = true := by decide +kernel
  have hok : (parse " let a = 1").ok = true := by decide +kernel
  obtain ⟨c, hc, hk⟩ := List.any_eq_true.mp hfound
  exact ⟨⟨c, hc, hk, (unexpected_reported _).1 c hc hk⟩, hok, (unexpected_reported _).2 hok⟩

end SwiftOutline
