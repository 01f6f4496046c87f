/-
  SwiftOutline.Proofs.Optional.Scan

  Whether the mark of an optional follows a type is looked for in the tree, from
  token to token and past all trivia. The grammar makes a mark part of the type
  only if it directly follows, so the search finds a mark of the type or one that
  whitespace or a comment separates from it, which belongs to something else.
-/
import SwiftOutline.Proofs.Optional.Marks
import SwiftOutline.Proofs.Tree.Neighbors

namespace SwiftOutline

open Token (significant)

/-! ## Marks in texts -/

namespace Lexeme

/-- A token that directly follows another is a lexeme without any gap before it. -/
theorem exists_ofTokensAfter_append {u v : Token} (hu : u.isTrivia = false)
    (hv : v.isTrivia = false) (gap : Gap) (ts us : List Token) :
    ∃ front back, (ofTokensAfter gap (ts ++ u :: v :: us)).1 =
      front ++ ⟨v.kind, v.text, .none⟩ :: back ∧ back.length = (significant us).length := by
  induction ts generalizing gap with
  | nil =>
    refine ⟨[⟨u.kind, u.text, gap⟩], (ofTokensAfter .none us).1, ?_, ?_⟩
    · simp [ofTokensAfter, hu, hv]
    · rw [← map_token_ofTokensAfter .none us, List.length_map]
  | cons t ts ih =>
    rw [List.cons_append, ofTokensAfter]
    cases ht : t.isTrivia with
    | true => exact ih (gap.extend t)
    | false =>
      obtain ⟨front, back, hfront, hback⟩ := ih .none
      exact ⟨⟨t.kind, t.text, gap⟩ :: front, back, by simp [hfront], hback⟩

/-- Where a `?` or `!` directly follows a token, there is a mark. -/
theorem markAt_of_append {u v : Token} (hu : u.isTrivia = false)
    (hv : v.kind = .question ∨ v.kind = .exclamation) (ts us : List Token) :
    markAt (ofTokens (ts ++ u :: v :: us)).1 (significant (v :: us)).length = true := by
  have hv' : v.isTrivia = false := by
    rcases hv with h | h <;> simp [Token.isTrivia, h, TokenKind.isTrivia]
  obtain ⟨front, back, hfront, hback⟩ := exists_ofTokensAfter_append hu hv' .none ts us
  have hlength : (significant (v :: us)).length =
      (⟨v.kind, v.text, .none⟩ :: back : List Lexeme).length := by
    rw [significant, List.filter_cons_of_pos (by simp [hv']), List.length_cons, List.length_cons,
      hback, significant]
  rw [ofTokens, hfront, hlength, markAt_of_suffix (List.suffix_append _ _)]
  rcases hv with h | h <;> simp [isMark, h, Gap.none]

end Lexeme

theorem forestMarksAgree_finalState {ts : List Token} (h : (finalState ts).left = 0) :
    Tree.ForestMarksAgree (Lexeme.markAt (Lexeme.ofTokens ts).1) false
      (finalState ts).built.reverse 0 := by
  have hforest := (Grammar.marksAgree_parseLexemes (Lexeme.ofTokens ts).1
    (Lexeme.ofTokens ts).2).forest
  rw [← h]
  exact hforest

namespace Cursor

variable {source : String} {c : Cursor}

/-- Whether the element is the type inside a marked type. -/
def isInMarked (c : Cursor) : Bool := c.above.head?.any fun f => f.kind.isMarked

/-- Types and marks agree in every place of the tree of a text. -/
theorem marksAgree_of_mem_nodes (hc : c ∈ (ofTree (parse source).tree).nodes) :
    c.tree.withoutTrivia.MarksAgree (Lexeme.markAt (Lexeme.ofTokens (lex source)).1) c.isInMarked
      (significant c.behind).length := by
  refine forall_mem_nodes (P := fun c => c.tree.withoutTrivia.MarksAgree _ c.isInMarked
    (significant c.behind).length) ?_ ?_ c hc
  · intro d hd e he
    obtain ⟨k, ts, u, us, htree, rfl⟩ := mem_elements.mp he
    rw [htree, Tree.withoutTrivia, Tree.forestWithoutTrivia_append, Tree.marksAgree_node_iff,
      Tree.forestMarksAgree_append, Tree.forestWithoutTrivia] at hd
    show u.withoutTrivia.MarksAgree _ k.isMarked
      (significant (Tree.forestLeaves us ++ d.behind)).length
    cases hu : u.isTriviaLeaf with
    | true =>
      cases u with
      | leaf t => exact .leaf
      | node k children => cases hu
    | false =>
      rw [hu, if_neg (by decide), Tree.forestMarksAgree_cons_iff,
        Tree.forestLeaves_forestWithoutTrivia] at hd
      rw [Token.significant_append, List.length_append]
      exact hd.2.2.1
  · show (parse source).tree.withoutTrivia.MarksAgree _ false 0
    rw [withoutTrivia_parse]
    exact .node (absurd · Bool.false_ne_true) (forestMarksAgree_finalState (left_finalState source))

/-- The token that a search for the mark of a type finds, and what directly follows the type. -/
theorem exists_of_isMarkedOptional (h : TypeShape.isMarkedOptional c = true) :
    ∃ x d v, c.lastSignificant? = some x ∧ x.nextToken? = some d ∧ d.IsAt v ∧
      (v.isTrivia = true ∨
        (v.kind = .question ∨ v.kind = .exclamation) ∧
          ∃ (u : Token) (front rest : List Token), u.isTrivia = false ∧
            c.tree.leaves = front ++ [u] ∧ c.behind = v :: rest) := by
  rw [TypeShape.isMarkedOptional, Option.any_eq_true] at h
  obtain ⟨t, ht, hmark⟩ := h
  obtain ⟨x, hlast, hnext⟩ := Option.bind_eq_some_iff.mp ht
  obtain ⟨u, front, hleaves, hlastcases⟩ := exists_of_lastSignificant? hlast
  obtain ⟨d, v, hd, hv, hbehind, hfound⟩ := exists_of_nextSignificant? hnext
  refine ⟨x, d, v, hlast, hd, hv, ?_⟩
  cases htrivia : v.isTrivia with
  | true => exact Or.inl rfl
  | false =>
    obtain rfl := hfound htrivia
    rcases hlastcases with ⟨hu, hsame⟩ | ⟨-, w, rest, hw, hwtrivia⟩
    · refine Or.inr ⟨?_, u, front, _, hu, hleaves, hsame.symm.trans hbehind⟩
      simpa [isToken, hv.token?_eq] using hmark
    · rw [hbehind] at hw
      obtain ⟨rfl, -⟩ := List.cons.inj hw
      exact absurd hwtrivia (by simp [htrivia])

end Cursor

/-- If a mark is found behind a name, an array type or a dictionary type in the tree of a text,
    then the type is the one inside a marked type, or whitespace or a comment stands directly
    behind it. So a mark makes a type optional that it does not belong to only across trivia. -/
theorem isInMarked_of_isMarkedOptional (source : String) :
    ∀ c ∈ (Cursor.ofTree (parse source).tree).nodes,
      (c.tree.nodeKind?.any NodeKind.isMarkable) = true → TypeShape.isMarkedOptional c = true →
      (c.parent?.any fun p => p.tree.nodeKind?.any NodeKind.isMarked) = true ∨
        ((c.lastSignificant?.bind Cursor.nextToken?).any fun t => t.token?.any Token.isTrivia) =
          true := by
  intro c hc hkind hmarked
  obtain ⟨x, d, v, hx, hd, hv, hcases⟩ := Cursor.exists_of_isMarkedOptional hmarked
  rcases hcases with htrivia | ⟨hmark, u, front, rest, hu, hleaves, hbehind⟩
  · right
    rw [hx, Option.bind_some, hd, Option.any_some, hv.token?_eq, Option.any_some, htrivia]
  · left
    obtain ⟨before, htext⟩ := Cursor.exists_leaves_of_mem_nodes hc
    have hagree := Cursor.marksAgree_of_mem_nodes hc
    -- the mark directly follows the last token of the type
    have hlex : lex source = (before ++ front) ++ u :: v :: rest := by
      rw [← leaves_parse, htext, hleaves, hbehind]
      simp only [List.append_assoc, List.singleton_append]
    have hmarkAt := Lexeme.markAt_of_append hu hmark (before ++ front) rest
    rw [← hlex] at hmarkAt
    cases htree : c.tree with
    | leaf t => simp [htree, Tree.nodeKind?] at hkind
    | node k children =>
      rw [hbehind, htree, Tree.withoutTrivia, Tree.marksAgree_node_iff] at hagree
      have hin : c.isInMarked = true := by
        rw [← hagree.1 (by simpa [htree, Tree.nodeKind?] using hkind), hmarkAt]
      rw [Cursor.isInMarked] at hin
      unfold Cursor.parent?
      cases habove : c.above with
      | nil => simp [habove] at hin
      | cons f above => simpa [habove, Frame.parent, Tree.nodeKind?] using hin

/-- The mark of `Int?` is found and belongs to it. -/
theorem isInMarked_of_question :
    ∃ c ∈ (Cursor.ofTree (parse "let a: Int? = 1").tree).nodes,
      (c.tree.nodeKind?.any NodeKind.isMarkable) = true ∧ TypeShape.isMarkedOptional c = true ∧
      ((c.parent?.any fun p => p.tree.nodeKind?.any NodeKind.isMarked) = true ∨
        ((c.lastSignificant?.bind Cursor.nextToken?).any fun t => t.token?.any Token.isTrivia) =
          true) := by
  have hfound : ((Cursor.ofTree (parse "let a: Int? = 1").tree).nodes.any fun c =>
      c.tree.nodeKind?.any NodeKind.isMarkable && TypeShape.isMarkedOptional c) = true := by
    decide +kernel
  obtain ⟨c, hc, hcond⟩ := List.any_eq_true.mp hfound
  rw [Bool.and_eq_true] at hcond
  exact ⟨c, hc, hcond.1, hcond.2, isInMarked_of_isMarkedOptional _ c hc hcond.1 hcond.2⟩

/-- The `!` of the statement on the next line is taken for a mark of the type, in a text without
    problems. So a mark that is found need not belong to the type. -/
theorem not_isInMarked_of_next_statement :
    (parse "let a: Int\n!b").ok = true ∧
    ¬ ∀ c ∈ (Cursor.ofTree (parse "let a: Int\n!b").tree).nodes,
      (c.tree.nodeKind?.any NodeKind.isMarkable) = true → TypeShape.isMarkedOptional c = true →
      (c.parent?.any fun p => p.tree.nodeKind?.any NodeKind.isMarked) = true := by
  have hfound : ((Cursor.ofTree (parse "let a: Int\n!b").tree).nodes.any fun c =>
      c.tree.nodeKind?.any NodeKind.isMarkable && TypeShape.isMarkedOptional c &&
        !(c.parent?.any fun p => p.tree.nodeKind?.any NodeKind.isMarked)) = true := by
    decide +kernel
  refine ⟨by decide +kernel, fun hall => ?_⟩
  obtain ⟨c, hc, hcond⟩ := List.any_eq_true.mp hfound
  simp only [Bool.and_eq_true, Bool.not_eq_true'] at hcond
  exact absurd (hall c hc hcond.1.1 hcond.1.2) (by simp [hcond.2])

end SwiftOutline
