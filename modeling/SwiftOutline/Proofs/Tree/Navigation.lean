/-
  SwiftOutline.Proofs.Tree.Navigation

  From token to token. The first token of an element is looked for in one place
  only, so an empty node hides the tokens behind it. Where no node is empty, the
  steps from token to token lead through all tokens of a tree, and the searches
  for tokens that are no trivia find what they are meant to find.
-/
import SwiftOutline.Proofs.Tree.Clean
import SwiftOutline.Proofs.Tree.Filled
import SwiftOutline.Proofs.Tree.Trimmed

namespace SwiftOutline

namespace Cursor

variable {t : Tree} {c x y : Cursor} {xs ys front back rest : List Cursor} {exit : Option Cursor}
  {k : NodeKind} {start offset : Nat} {above : List Frame} {before : List Tree}

/-! ## Ends of filled trees -/

/-- A tree without empty nodes has a first token, and the search for it finds it. -/
theorem exists_head?_tokensOf (h : t.Filled fun _ => True) (start : Nat) (above : List Frame) :
    ∃ x, firstTokenOf t start above = some x ∧ (tokensOf t start above).head? = some x := by
  induction h generalizing start above with
  | leaf => exact ⟨_, rfl, rfl⟩
  | @node k children tokens _ ih =>
    cases children with
    | nil => exact absurd rfl (tokens trivial)
    | cons u us =>
      obtain ⟨x, hfirst, hhead⟩ := ih u List.mem_cons_self start (⟨k, start, [], us⟩ :: above)
      refine ⟨x, hfirst, ?_⟩
      rw [tokensOf, tokensOfForest, List.head?_append, hhead, Option.some_or]

theorem exists_getLast?_tokensOfForest {ts : List Tree} (hts : ts ≠ [])
    (h : ∀ u ∈ ts, ∀ start above, ∃ x, lastTokenOf u start above = some x ∧
      (tokensOf u start above).getLast? = some x) :
    ∃ x, lastTokenOfForest k start above before offset ts = some x ∧
      (tokensOfForest k start above before offset ts).getLast? = some x := by
  induction ts generalizing before offset with
  | nil => exact absurd rfl hts
  | cons u us ih =>
    rw [tokensOfForest]
    cases us with
    | nil =>
      rw [tokensOfForest, List.append_nil]
      exact h u List.mem_cons_self offset _
    | cons v vs =>
      obtain ⟨x, hlast, hgetLast⟩ := @ih (offset + u.size) (u :: before)
        (List.cons_ne_nil v vs) fun w hw => h w (List.mem_cons_of_mem _ hw)
      refine ⟨x, hlast, ?_⟩
      rw [List.getLast?_append, hgetLast, Option.some_or]

/-- It has a last token, too. -/
theorem exists_getLast?_tokensOf (h : t.Filled fun _ => True) (start : Nat) (above : List Frame) :
    ∃ x, lastTokenOf t start above = some x ∧ (tokensOf t start above).getLast? = some x := by
  induction h generalizing start above with
  | leaf => exact ⟨_, rfl, rfl⟩
  | @node k children tokens _ ih =>
    refine exists_getLast?_tokensOfForest (fun hnil => tokens trivial ?_) ih
    rw [hnil, Tree.forestLeaves]

/-! ## Steps -/

/-- Whether the step from each of some tokens leads to the one listed behind it, and the step from
    the last one to `exit`. -/
def Consecutive (exit : Option Cursor) : List Cursor → Prop
  | [] => True
  | x :: rest => x.nextToken? = rest.head?.or exit ∧ Consecutive exit rest

namespace Consecutive

theorem append (hxs : Consecutive (ys.head?.or exit) xs) (hys : Consecutive exit ys) :
    Consecutive exit (xs ++ ys) := by
  induction xs with
  | nil => exact hys
  | cons x xs ih =>
    refine ⟨?_, ih hxs.2⟩
    rw [hxs.1, List.append_eq, List.head?_append, Option.or_assoc]

theorem of_append (h : Consecutive exit (xs ++ ys)) : Consecutive exit ys := by
  induction xs with
  | nil => exact h
  | cons x xs ih => exact ih h.2

end Consecutive

theorem consecutive_tokensOfForest {ts : List Tree} (hts : ∀ u ∈ ts, u.Filled fun _ => True)
    (h : ∀ u ∈ ts, ∀ start above, Consecutive ((elementAfter u start above).bind firstToken?)
      (tokensOf u start above)) :
    Consecutive ((elementAfter (.node k (before.reverse ++ ts)) start above).bind firstToken?)
      (tokensOfForest k start above before offset ts) := by
  induction ts generalizing before offset with
  | nil => trivial
  | cons u us ih =>
    have hrest := @ih (offset + u.size) (u :: before)
      (fun v hv => hts v (List.mem_cons_of_mem _ hv)) fun v hv => h v (List.mem_cons_of_mem _ hv)
    have hparent : (u :: before).reverse ++ us = before.reverse ++ u :: us := by
      rw [List.reverse_cons, List.append_assoc, List.singleton_append]
    rw [hparent] at hrest
    have hfirst := h u List.mem_cons_self offset (⟨k, start, before, us⟩ :: above)
    -- behind the first tree comes the second one, or what comes behind the parent
    cases us with
    | nil =>
      rw [tokensOfForest, tokensOfForest, List.append_nil]
      exact hfirst
    | cons v vs =>
      obtain ⟨x, hx, hhead⟩ := exists_head?_tokensOf
        (hts v (List.mem_cons_of_mem _ List.mem_cons_self)) (offset + u.size)
        (⟨k, start, u :: before, vs⟩ :: above)
      refine Consecutive.append ?_ hrest
      rw [tokensOfForest, List.head?_append, hhead, Option.some_or, Option.some_or, ← hx]
      exact hfirst

/-- In a tree without empty nodes the steps lead through all tokens. -/
theorem consecutive_tokensOf (h : t.Filled fun _ => True) (start : Nat) (above : List Frame) :
    Consecutive ((elementAfter t start above).bind firstToken?) (tokensOf t start above) := by
  induction h generalizing start above with
  | leaf => exact ⟨rfl, trivial⟩
  | @node k children _ inside ih =>
    rw [tokensOf]
    exact @consecutive_tokensOfForest k start start above [] children inside ih

/-- So they do in a tree of such trees, which may itself be empty. -/
theorem consecutive_tokens (h : ∀ u ∈ t.children, u.Filled fun _ => True) :
    Consecutive none (ofTree t).tokens := by
  cases t with
  | leaf u => exact ⟨rfl, trivial⟩
  | node k children =>
    exact @consecutive_tokensOfForest k 0 0 [] [] children h
      fun u hu => consecutive_tokensOf (h u hu)

/-! ## Searches -/

theorem Consecutive.seek_eq {n : Nat} (h : Consecutive none (x :: rest)) (hn : rest.length < n) :
    seek nextToken? n x = (x :: rest).find? isSignificant := by
  induction rest generalizing x n with
  | nil =>
    obtain ⟨n, rfl⟩ : ∃ m, n = m + 1 := ⟨n - 1, by omega⟩
    rw [seek, h.1, List.find?_cons]
    cases x.isSignificant <;> rfl
  | cons y rest ih =>
    obtain ⟨n, rfl⟩ : ∃ m, n = m + 1 := ⟨n - 1, by omega⟩
    rw [seek, h.1, List.find?_cons]
    cases x.isSignificant with
    | true => rfl
    | false => exact ih h.2 (Nat.lt_of_succ_lt_succ hn)

/-- The search for the next token that is no trivia finds the first one behind a token. -/
theorem Consecutive.nextSignificant?_eq (h : Consecutive none (front ++ x :: back))
    (hback : back.length ≤ x.tokenTotal) : x.nextSignificant? = back.find? isSignificant := by
  obtain ⟨hnext, hrest⟩ := h.of_append
  rw [nextSignificant?, hnext, Option.or_none]
  cases back with
  | nil => rfl
  | cons y back => exact hrest.seek_eq hback

/-! ### Numbers of tokens -/

theorem Within.of_mem_tokens (h : Within t c) (hx : x ∈ c.tokens) : Within t x := by
  induction c using induction_elements with
  | h c ih =>
    cases hk : c.tree.nodeKind? with
    | none =>
      rw [tokens_of_leaf hk] at hx
      exact List.mem_singleton.mp hx ▸ h
    | some k =>
      rw [tokens_of_node hk] at hx
      obtain ⟨e, he, hx⟩ := List.mem_flatMap.mp hx
      exact ih e he (.child h he) hx

theorem length_forestLeaves_reverse (ts : List Tree) :
    (Tree.forestLeaves ts.reverse).length = (Tree.forestLeaves ts).length := by
  induction ts with
  | nil => rfl
  | cons u us ih =>
    rw [List.reverse_cons, Tree.forestLeaves_append, List.length_append, ih, Tree.forestLeaves,
      Tree.forestLeaves, Tree.forestLeaves, List.append_nil, List.length_append, Nat.add_comm]

theorem tokenTotal_of_mem_elements (h : x ∈ c.elements) : x.tokenTotal = c.tokenTotal := by
  obtain ⟨k, ts, u, us, htree, rfl⟩ := mem_elements.mp h
  simp only [tokenTotal, tokensBeside, htree, Tree.leaves, Tree.forestLeaves_append,
    Tree.forestLeaves, List.length_append, length_forestLeaves_reverse]
  omega

/-- From every place of a tree the same number of tokens is counted. -/
theorem Within.tokenTotal_eq (h : Within t c) : c.tokenTotal = t.leaves.length := by
  induction h with
  | root => exact Nat.add_zero _
  | child _ mem ih => exact (tokenTotal_of_mem_elements mem).trans ih

theorem length_tokens (t : Tree) : (ofTree t).tokens.length = t.leaves.length := by
  have hlayout : ∀ (ts : List Token) (start : Nat), (Token.layout start ts).length = ts.length := by
    intro ts
    induction ts with
    | nil => intro start; rfl
    | cons u us ih => intro start; rw [Token.layout, List.length_cons, List.length_cons, ih]
  have hlength := congrArg List.length (map_triple_tokensOf t 0 [])
  rwa [List.length_map, List.length_map, hlayout] at hlength

/-- In a tree without empty nodes below the root, the next token that is no trivia is found. -/
theorem nextSignificant?_of_filled (h : ∀ u ∈ t.children, u.Filled fun _ => True)
    (htokens : (ofTree t).tokens = front ++ x :: back) :
    x.nextSignificant? = back.find? isSignificant := by
  have hconsecutive := consecutive_tokens h
  rw [htokens] at hconsecutive
  -- the search may take as many steps as the whole tree has tokens
  refine hconsecutive.nextSignificant?_eq ?_
  have hx : x ∈ (ofTree t).tokens := by
    rw [htokens]
    exact List.mem_append_right _ List.mem_cons_self
  have hlength := congrArg List.length htokens
  rw [length_tokens, List.length_append, List.length_cons] at hlength
  rw [(Within.root.of_mem_tokens hx).tokenTotal_eq]
  omega

/-! ## Texts -/

section Texts

variable {source : String}

/-- Below the root of the tree of a text no node is empty, if none is that may be. -/
theorem filled_of_ok (hok : (parse source).ok = true)
    (harguments : ∀ c ∈ (ofTree (parse source).tree).nodes,
      c.isKind .attributeArgument = true → c.tree.leaves ≠ [])
    (hc : c ∈ (ofTree (parse source).tree).nodes) (habove : c.above ≠ []) :
    c.tree.Filled fun _ => True := by
  refine filled_of_forall_mem_nodes fun x hx k hk _ => ?_
  have hmem := mem_nodes_trans hc hx
  have hbelow : x.above ≠ [] := by
    have hdepth := length_above_le_of_mem_nodes hx
    have hpos := List.length_pos_iff.mpr habove
    exact List.length_pos_iff.mp (Nat.lt_of_lt_of_le hpos hdepth)
  -- of all kinds of nodes, this one alone may be empty without any report
  by_cases hne : k = .attributeArgument
  · exact harguments x hmem (by rw [isKind, hk, hne]; rfl)
  · exact leaves_ne_nil_of_ok hok hmem hbelow hk hne

theorem filled_children_of_ok (hok : (parse source).ok = true)
    (harguments : ∀ c ∈ (ofTree (parse source).tree).nodes,
      c.isKind .attributeArgument = true → c.tree.leaves ≠ []) :
    ∀ u ∈ (parse source).tree.children, u.Filled fun _ => True := by
  intro u hu
  obtain ⟨e, he, rfl⟩ := exists_mem_elements_ofTree hu
  cases hk : e.tree.nodeKind? with
  | none =>
    cases htree : e.tree with
    | leaf b => exact .leaf
    | node k children => rw [htree] at hk; exact nomatch hk
  | some k =>
    refine filled_of_ok hok harguments (mem_nodes_of_mem_elements he (mem_nodes_self hk)) ?_
    exact List.length_pos_iff.mp (Nat.lt_of_lt_of_eq (Nat.succ_pos _)
      (length_above_of_mem_elements he).symm)

/-- A tidy node without empty nodes spans from its first to its last token, and neither is
    trivia. -/
theorem trimmedSpan_of_filled (htidy : c.tree.Tidy) (hc : c.tree.nodeKind?.isSome = true)
    (h : c.tree.Filled fun _ => True) :
    ∃ first last, (c.tokens.filter isSignificant).head? = some first ∧
      (c.tokens.filter isSignificant).getLast? = some last ∧
      c.trimmedSpan = ⟨first.span.start, last.span.stop⟩ := by
  obtain ⟨first, hfirst, hhead⟩ := exists_head?_tokensOf h c.start c.above
  obtain ⟨last, hlast, hgetLast⟩ := exists_getLast?_tokensOf h c.start c.above
  have hfirst' : c.firstSignificant? = some first := (firstSignificant?_eq htidy hc).trans hfirst
  have hlast' : c.lastSignificant? = some last := (lastSignificant?_eq htidy hc).trans hlast
  refine ⟨first, last, ?_, ?_, by rw [trimmedSpan, hfirst', hlast']⟩
  -- the outermost tokens are no trivia, so leaving out trivia keeps them outermost
  · obtain ⟨rest, hrest⟩ := List.head?_eq_some_iff.mp hhead
    rw [tokens, hrest, List.filter_cons_of_pos (isSignificant_of_firstSignificant? hfirst')]
    rfl
  · obtain ⟨front, hfront⟩ := List.getLast?_eq_some_iff.mp hgetLast
    rw [tokens, hfront, List.filter_append,
      List.filter_cons_of_pos (isSignificant_of_lastSignificant? hlast'), List.filter_nil]
    exact List.getLast?_concat

end Texts

end Cursor

/-- Let no problem be found in a text, and no argument of an attribute be empty. Then no node but
    the root is empty, and every other node spans, with nothing to trim, from its first to its last
    token that is no trivia. The tokens of the tree are the tokens of the text, and the search for
    the next token that is no trivia finds the first one behind a token, if there is one. -/
theorem navigation_of_ok {source : String} (hok : (parse source).ok = true)
    (harguments : ∀ c ∈ (Cursor.ofTree (parse source).tree).nodes,
      c.isKind .attributeArgument = true → c.tree.leaves ≠ []) :
    (∀ c ∈ (Cursor.ofTree (parse source).tree).nodes, c.above ≠ [] →
      c.tree.leaves ≠ [] ∧ c.trimmedSpan = c.span ∧
      ∃ first last, (c.tokens.filter Cursor.isSignificant).head? = some first ∧
        (c.tokens.filter Cursor.isSignificant).getLast? = some last ∧
        c.trimmedSpan = ⟨first.span.start, last.span.stop⟩) ∧
    ((Cursor.ofTree (parse source).tree).tokens.map fun x => (x.tree.kind, x.span, x.text)) =
      (Token.layout 0 (lex source)).map (fun p => (ElementKind.token p.2.kind, p.1, p.2.text)) ∧
    ∀ front x back, (Cursor.ofTree (parse source).tree).tokens = front ++ x :: back →
      x.nextSignificant? = back.find? Cursor.isSignificant := by
  refine ⟨fun c hc habove => ?_, ?_, fun front x back htokens => ?_⟩
  · have hfilled := Cursor.filled_of_ok hok harguments hc habove
    have htidy := Tree.Tidy.of_mem_nodes (tidy_of_mem_children_parse source) hc habove
    have hnode := Cursor.isSome_nodeKind?_of_mem_nodes hc
    obtain ⟨k, hk⟩ := Option.isSome_iff_exists.mp hnode
    exact ⟨hfilled.leaves_ne_nil hk trivial, Cursor.trimmedSpan_of_mem_nodes hc habove,
      Cursor.trimmedSpan_of_filled htidy hnode hfilled⟩
  · rw [← leaves_parse]
    exact Cursor.map_triple_tokensOf (parse source).tree 0 []
  · exact Cursor.nextSignificant?_of_filled (Cursor.filled_children_of_ok hok harguments) htokens

/-- An attribute with arguments, and blanks and a comment between the tokens and at both ends. -/
theorem navigation_of_ok_attribute :
    (parse " @available(iOS 13, *) func f( a: Int ) // end\n").ok = true ∧
    (∃ c ∈ (Cursor.ofTree
        (parse " @available(iOS 13, *) func f( a: Int ) // end\n").tree).nodes,
      c.isKind .attributeArgument = true) ∧
    (∀ c ∈ (Cursor.ofTree
        (parse " @available(iOS 13, *) func f( a: Int ) // end\n").tree).nodes, c.above ≠ [] →
      c.tree.leaves ≠ [] ∧ c.trimmedSpan = c.span) ∧
    ∀ front x back, (Cursor.ofTree
        (parse " @available(iOS 13, *) func f( a: Int ) // end\n").tree).tokens =
          front ++ x :: back → x.nextSignificant? = back.find? Cursor.isSignificant := by
  have hok : (parse " @available(iOS 13, *) func f( a: Int ) // end\n").ok = true := by
    decide +kernel
  have hfound : ((Cursor.ofTree
      (parse " @available(iOS 13, *) func f( a: Int ) // end\n").tree).nodes.any fun c =>
        c.isKind .attributeArgument) = true := by
    decide +kernel
  have harguments : ((Cursor.ofTree
      (parse " @available(iOS 13, *) func f( a: Int ) // end\n").tree).nodes.all fun c =>
        !c.isKind .attributeArgument || !c.tree.leaves.isEmpty) = true := by
    decide +kernel
  obtain ⟨hnodes, -, hnext⟩ := navigation_of_ok hok fun c hc hk => by
    have hfull := List.all_eq_true.mp harguments c hc
    rw [hk] at hfull
    simpa using hfull
  exact ⟨hok, by simpa using hfound, fun c hc habove => ⟨(hnodes c hc habove).1,
    (hnodes c hc habove).2.1⟩, hnext⟩

end SwiftOutline
