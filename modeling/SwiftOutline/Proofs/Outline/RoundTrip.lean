/-
  SwiftOutline.Proofs.Outline.RoundTrip

  The description of a declaration, parsed alone. Collecting it is meant to give
  what has been recorded for the declaration, and it does so for a declaration
  that can be taken out of its text. It does not where a line begins with an
  operator that ends the declaration: behind the operator the text goes on with a
  blank, the description does not.
-/
import SwiftOutline.Proofs.Cut.TopLevel
import SwiftOutline.Proofs.Outline.SourceOrder
import SwiftOutline.Proofs.Parameters.Tokens
import SwiftOutline.Proofs.TypeShape.Alone

namespace SwiftOutline

/-- Collecting the description of a declaration gives what has been recorded for its node. -/
def Declaration.Recollects (m : ViewMode) (d : Declaration) : Prop :=
  (parse d.header.description).ok = true ∧
    Outline.same (Outline.ofSource m d.header.description) (Declaration.read m d.place) = true

instance (m : ViewMode) (d : Declaration) : Decidable (d.Recollects m) :=
  inferInstanceAs (Decidable (_ ∧ _))

/-- The white space that may stand between two lexemes. -/
def plainBlanks : List Char := [' ', '\t', '\n', '\r', '\x0c']

/-- Whether a text has no other white space. -/
def hasPlainBlanks (source : String) : Bool :=
  source.toList.all fun ch => !Text.isBlank ch || plainBlanks.contains ch

/-! ## A declaration alone -/

/-- Every place agrees with itself. -/
theorem Cursor.agrees_eq : Agrees Eq where
  tree := congrArg Cursor.tree
  elements h := h ▸ List.forall₂_same.mpr fun _ _ => rfl
  surroundedIn h _ := h ▸ rfl
  first h _ := h ▸ rfl
  marked h _ := h ▸ rfl
  wrapping h := h ▸ rfl

namespace Declaration

variable {m : ViewMode} {c : Cursor} {K : DeclarationKind} {d : Declaration}

/-- All that a node introduces is described by the text of the node. -/
theorem description_of_mem_readWith {read : Cursor → List Declaration}
    (hd : d ∈ readWith read m c) : d.header.description = c.description := by
  unfold readWith at hd
  split at hd
  · unfold variablesOf at hd
    split at hd
    · obtain ⟨x, -, rfl⟩ := List.mem_map.mp hd
      rfl
    · exact absurd hd List.not_mem_nil
  · obtain ⟨x, -, rfl⟩ := Option.map_eq_some_iff.mp (Option.mem_toList.mp hd)
    rfl

theorem description_of_mem_read (hd : d ∈ read m c) : d.header.description = c.description := by
  rw [read] at hd
  cases hn : c.tree.height with
  | zero =>
    rw [hn] at hd
    exact absurd hd List.not_mem_nil
  | succ n =>
    rw [hn] at hd
    exact description_of_mem_readWith hd

end Declaration

/-- The outline of a single node is what is read of it. -/
theorem Outline.ofNodes_singleton {read : Cursor → List Declaration} {c : Cursor}
    {K : DeclarationKind} (hK : c.introduces? = some K) : ofNodes read [c] = read c := by
  have hfilter : ∀ k,
      ([c].filter fun c => c.tree.nodeKind?.bind DeclarationKind.ofNode? == some k) =
        if K == k then [c] else [] := by
    intro k
    have hkind : c.tree.nodeKind?.bind DeclarationKind.ofNode? = some K := hK
    rw [List.filter_singleton, hkind]
    cases k <;> cases K <;> rfl
  rw [ofNodes]
  simp only [hfilter]
  cases K <;> simp [DeclarationKind.all]

/-- The outline of a text that is one declaration is what is read of this declaration. -/
theorem Outline.ofSource_eq_read {source : String} {t : Tree} {K : DeclarationKind} {m : ViewMode}
    (hparse : parse source = ⟨.node .sourceFile [t], []⟩)
    (ht : t.nodeKind?.bind DeclarationKind.ofNode? = some K) :
    ofSource m source = Declaration.read m ⟨t, 0, [⟨.sourceFile, 0, [], []⟩]⟩ := by
  let c : Cursor := ⟨t, 0, [⟨.sourceFile, 0, [], []⟩]⟩
  have hgather : c.gather (visitDeclarations m) = [c] := by
    obtain ⟨k, hk, hof⟩ := Option.bind_eq_some_iff.mp ht
    have hvisit : visitDeclarations m k = .take := by
      have hne : k ≠ .unexpected := by
        rintro rfl
        exact nomatch hof
      rw [← beq_iff_eq, Cursor.visitDeclarations_take, hof, Option.isSome_some, Bool.and_true,
        ViewMode.shows, bne_iff_ne.mpr hne, Bool.or_true]
    rw [Cursor.gather_of_node (k := k) hk, hvisit]
  rw [ofSource, hparse, ofCursor_sourceFile]
  show ofNodes _ ([c].flatMap _) = _
  rw [List.flatMap_singleton, hgather, ofNodes_singleton (c := c) ht]

/-- A declaration that is the whole of a text, which has no white space at its ends, is read back
    from its description. -/
theorem Declaration.recollects_of_alone {source : String} {t : Tree} {K : DeclarationKind}
    {m : ViewMode} (hparse : parse source = ⟨.node .sourceFile [t], []⟩)
    (ht : t.nodeKind?.bind DeclarationKind.ofNode? = some K) (htrim : Text.trim source = source) :
    ∀ d ∈ Outline.ofSource m source, d.Recollects m := by
  let c : Cursor := ⟨t, 0, [⟨.sourceFile, 0, [], []⟩]⟩
  have hroot : Outline.ofSource m source = Declaration.read m c :=
    Outline.ofSource_eq_read hparse ht
  have htext : c.description = source := by
    have hleaves := leaves_parse source
    rw [hparse, Tree.leaves, Tree.forestLeaves, Tree.forestLeaves, List.append_nil] at hleaves
    rw [Cursor.description, Cursor.text, Tree.text, hleaves, join_lex, htrim]
  intro d hd
  rw [hroot] at hd
  rw [Declaration.Recollects, place_of_mem_read (c := c) ht hd, description_of_mem_read hd, htext,
    hroot]
  refine ⟨?_, ?_⟩
  · rw [Parse.ok, hparse]
    rfl
  · exact Declaration.sameAll_of_forall₂ (Declaration.read_mirror Cursor.agrees_eq rfl)

/-- A function that is written alone is read back, with all its parameters, effects and types. -/
theorem FunctionText.recollects (f : FunctionText) (m : ViewMode) :
    ∀ d ∈ Outline.ofSource m f.text, d.Recollects m := by
  have hfirst : f.text.toList.head? = some 'f' := by simp [text, String.toList_append]
  have hlast : f.text.toList.getLast? = some '\x7d' := by
    rw [text, String.toList_append, List.getLast?_append]
    rfl
  refine Declaration.recollects_of_alone f.parse_text rfl (Text.trim_eq_self_of_ends ?_ ?_)
  · intro c hc
    rw [hfirst] at hc
    obtain rfl := Option.some.inj hc
    rfl
  · intro c hc
    rw [hlast] at hc
    obtain rfl := Option.some.inj hc
    rfl

/-! ## A declaration among others -/

/-- A child of the root of a text can be taken out of the text: its lexemes can be cut off, its text
    neither ends with trivia nor has white space at its ends, and no mark follows it. -/
structure Cursor.Detachable (source : String) (c : Cursor) : Prop where
  cuttable : Cuttable ⟨(Token.significant c.behind).length, 0⟩ (Lexeme.ofTokens (lex source)).1
  last : ∃ t ∈ c.tree.leaves.getLast?, t.isTrivia = false
  trimmed : Text.trim c.text = c.text
  unmarked : TypeShape.Sealed c.behind

/-- The children of the root of a text stand among each other. -/
theorem Cursor.exists_of_mem_elements_parse {source : String} {c : Cursor}
    (hc : c ∈ (Cursor.ofTree (parse source).tree).elements) :
    ∃ before after start, (parse source).tree = .node .sourceFile (before ++ c.tree :: after) ∧
      c = ⟨c.tree, start, [⟨.sourceFile, 0, before.reverse, after⟩]⟩ := by
  obtain ⟨trees, htrees⟩ : ∃ trees, (parse source).tree = .node .sourceFile trees := ⟨_, rfl⟩
  obtain ⟨k, before, t, after, hchildren, rfl⟩ := Cursor.mem_elements.mp hc
  rw [htrees] at hchildren
  obtain ⟨rfl, rfl⟩ := Tree.node.inj hchildren
  exact ⟨before, after, _, htrees, rfl⟩

/-- A declaration that can be taken out of a text without problems is read back from its
    description, whatever else stands in the text. -/
theorem Declaration.recollects_of_detachable {source : String} {c : Cursor} {K : DeclarationKind}
    {m : ViewMode} (hok : (parse source).ok = true)
    (hc : c ∈ (Cursor.ofTree (parse source).tree).elements) (hK : c.introduces? = some K)
    (h : c.Detachable source) : ∀ d ∈ read m c, d.Recollects m := by
  obtain ⟨before, after, start, htree, hplace⟩ := Cursor.exists_of_mem_elements_parse hc
  have htidy := tidy_of_mem_children_parse source c.tree (by simp [htree, Tree.children])
  have hafter : c.behind = Tree.forestLeaves after := by
    rw [hplace]
    exact List.append_nil _
  have hdeclared : c.tree.nodeKind?.any NodeKind.isDeclared = true := by
    obtain ⟨k, hk, hof⟩ := Option.bind_eq_some_iff.mp hK
    rw [hk, Option.any_some, NodeKind.isDeclared, hof]
    rfl
  have hparse : parse c.text = ⟨.node .sourceFile [c.tree], []⟩ :=
    parse_text_of_child hok htree hdeclared h.last (hafter ▸ h.cuttable)
  -- the tree is the same as in the text, and the two places of it agree
  have hagrees : Cursor.Agrees
      (Cursor.Paired ⟨c.tree, 0, [⟨.sourceFile, 0, [], []⟩]⟩ c) := by
    refine Cursor.Paired.agrees rfl htidy ?_ (fun _ => (Option.not_mem_none _).elim) h.unmarked
      (fun m => ?_) fun m => ?_
    · rw [hplace]
      rfl
    · cases m <;> rfl
    · rw [hplace]
      cases m <;> rfl
  intro d hd
  have htext : c.description = c.text := h.trimmed
  rw [Recollects, place_of_mem_read hK hd, description_of_mem_read hd, htext,
    Outline.ofSource_eq_read hparse hK]
  refine ⟨?_, ?_⟩
  · rw [Parse.ok, hparse]
    rfl
  · exact sameAll_of_forall₂ (read_mirror hagrees .here)

/-- A function between two other declarations, with a comment before it. -/
theorem recollects_between_declarations :
    let source := "let a = 1 // one\nfunc f(b: Int) -> Bool \x7b return b > a \x7d\nclass C \x7b\x7d"
    (parse source).ok = true ∧ ∃ c ∈ (Cursor.ofTree (parse source).tree).elements,
      c.introduces? = some .function ∧ c.Detachable source ∧
        ∀ m, ∀ d ∈ Declaration.read m c, d.Recollects m := by
  intro source
  have hok : (parse source).ok = true := by decide +kernel
  have hcut : ∀ l ∈ (Lexeme.ofTokens (lex source)).1, l.kind ≠ .eof ∧ l.kind ≠ .atSign ∧
      Lookahead.atThrows [l] = false ∧ l.leadsLine = false := by decide +kernel
  have hfound : ∃ c ∈ (Cursor.ofTree (parse source).tree).elements,
      c.introduces? = some .function ∧ (∃ t ∈ c.tree.leaves.getLast?, t.isTrivia = false) ∧
        Text.trim c.text = c.text ∧ ∀ v ∈ (Token.significant c.behind).head?,
          v.kind ≠ .question ∧ v.kind ≠ .exclamation := by
    decide +kernel
  obtain ⟨c, hc, hK, hlast, htrim, hbehind⟩ := hfound
  have hdetachable : c.Detachable source := ⟨.of_forall hcut, hlast, htrim, hbehind⟩
  exact ⟨hok, c, hc, hK, hdetachable,
    fun _ => Declaration.recollects_of_detachable hok hc hK hdetachable⟩

/-! ## A blank that counts -/

/-- Behind the operator that begins the last line stands a blank, which the description leaves
    out. The operator then is a statement of its own. -/
theorem not_recollects_of_leading_operator :
    let source := "let x = a\n+ "
    (parse source).ok = true ∧ hasPlainBlanks source = true ∧
      ¬ ∀ d ∈ Outline.ofSource .sourceAccurate source,
        TypeShape.isMarkedOptional d.place = false → d.Recollects .sourceAccurate := by
  intro source
  refine ⟨by decide +kernel, by decide +kernel, fun hall => ?_⟩
  have hfound : (Outline.ofSource .sourceAccurate source).any (fun d =>
      !TypeShape.isMarkedOptional d.place && !decide (d.Recollects .sourceAccurate)) = true := by
    decide +kernel
  obtain ⟨d, hd, hcond⟩ := List.any_eq_true.mp hfound
  rw [Bool.and_eq_true, Bool.not_eq_true', Bool.not_eq_true', decide_eq_false_iff_not] at hcond
  exact hcond.2 (hall d hd hcond.1)

end SwiftOutline
