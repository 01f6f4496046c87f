/-
  SwiftOutline.Proofs.Outline.OperatorNames

  Functions that are operators. The parser lets points stand in the name of an
  operator, as in a range, and what tells names of operators apart does not; all
  other characters are in both of their alphabets.
-/
import SwiftOutline.Proofs.Outline.Keywords
import SwiftOutline.Proofs.Parser.Names
import SwiftOutline.Proofs.Token.Literal
import SwiftOutline.Proofs.Token.Operators

namespace SwiftOutline

/-! ## Names in a tree -/

namespace Cursor

variable {source : String} {name : Cursor}

/-- A name that begins with an operator consists of tokens of operators. -/
theorem extendsOperator_of_mem_name (hname : name ∈ (ofTree (parse source).tree).nodes)
    (hkind : name.tree.nodeKind? = some .declaredName)
    (hfirst : name.tree.leaves.head?.any (fun t => t.kind.isOperatorLike) = true) :
    ∀ t ∈ name.tree.leaves, t.kind.extendsOperator = true := by
  obtain ⟨ts, hchildren, htail⟩ :=
    (names_parse source).here_of_within (Within.root.of_mem_nodes hname) hkind rfl
  have hleaves : name.tree.leaves = ts := by
    cases htree : name.tree with
    | leaf t => rw [htree] at hkind; cases hkind
    | node k children =>
      rw [htree, Tree.children] at hchildren
      rw [Tree.leaves, hchildren, Tree.forestLeaves_map_leaf]
  rw [hleaves] at hfirst ⊢
  cases ts with
  | nil => exact fun t ht => absurd ht List.not_mem_nil
  | cons t ts =>
    have ht : t.kind.isOperatorLike = true := hfirst
    exact List.forall_mem_cons.mpr ⟨by rw [TokenKind.extendsOperator, ht, Bool.true_or], htail⟩

/-- Such a name is spelled with the characters of operators. -/
theorem isOperatorPart_of_name (hname : name ∈ (ofTree (parse source).tree).nodes)
    (hkind : name.tree.nodeKind? = some .declaredName)
    (hfirst : name.tree.leaves.head?.any (fun t => t.kind.isOperatorLike) = true) :
    name.text ≠ "" ∧ ∀ d ∈ name.text.toList, Lexer.isOperatorPart d = true := by
  have hextends := extendsOperator_of_mem_name hname hkind hfirst
  have hlex : ∀ t ∈ name.tree.leaves, t ∈ lex source := by
    intro t ht
    obtain ⟨before, hleaves, -⟩ := (Within.root.of_mem_nodes hname).exists_leaves
    rw [← leaves_parse, hleaves]
    exact List.mem_append_right _ (List.mem_append_left _ ht)
  rw [text, Tree.text]
  cases hleaves : name.tree.leaves with
  | nil => rw [hleaves] at hfirst; cases hfirst
  | cons t ts =>
    rw [hleaves] at hlex hextends
    constructor
    · have hne := (proper_of_mem_lex (hlex t List.mem_cons_self)).text_ne
      simp [hne]
    · intro d hd
      obtain ⟨u, hu, hmem⟩ : ∃ u ∈ t :: ts, d ∈ u.text.toList := by simpa using hd
      exact isOperatorPart_of_mem_lex (hlex u hu) (hextends u hu) d hmem

end Cursor

/-! ## Outlines -/

open Cursor

theorem Declaration.name_of_mem_read {m : ViewMode} {c : Cursor} {d : Declaration}
    (h : d ∈ read m c) (hc : c.isKind .variableDecl = false) : d.header.name = Header.nameOf c := by
  rw [read_eq_readWith, readWith, if_neg (by simp [hc])] at h
  obtain ⟨details, -, rfl⟩ := Option.map_eq_some_iff.mp (Option.mem_toList.mp h)
  rfl

/-- The name of a function at any depth whose declared name begins with an operator is that name as
    it is written, and it is a name of an operator if and only if there is no point in it. -/
theorem isValid_name_of_reached (m : ViewMode) {source : String} {path : List Nat}
    {d : Declaration} (hd : (Outline.ofSource m source).at? path = some d)
    (hfunction : d.kind = .function) {name : Cursor}
    (hname : d.place.child? .declaredName = some name)
    (hfirst : name.tree.leaves.head?.any (fun t => t.kind.isOperatorLike) = true) :
    d.header.name = name.text ∧
      (OperatorName.isValid d.header.name = true ↔ '.' ∉ d.header.name.toList) := by
  obtain ⟨c, hc, hintro, hread⟩ :=
    Outline.exists_of_at? (mem_nodes_self (nodeKind?_parse source)) hd
  obtain ⟨K, hK⟩ := Option.isSome_iff_exists.mp hintro
  rw [Declaration.kind_of_mem_read hK hread] at hfunction
  rw [Declaration.place_of_mem_read hK hread] at hname
  have hvariable : c.isKind .variableDecl = false := by
    rw [isKind, beq_eq_false_iff_ne]
    intro hk
    rw [introduces?, hk, hfunction] at hK
    cases hK
  have hkind : name.tree.nodeKind? = some .declaredName := by
    have hkind := List.find?_some hname
    rwa [isKind, beq_iff_eq] at hkind
  have hnode : name ∈ (ofTree (parse source).tree).nodes :=
    mem_nodes_trans hc (mem_nodes_of_mem_elements (List.mem_of_find?_eq_some hname)
      (mem_nodes_self hkind))
  obtain ⟨hne, hparts⟩ := isOperatorPart_of_name hnode hkind hfirst
  have hwritten : d.header.name = name.text := by
    rw [Declaration.name_of_mem_read hread hvariable, Header.nameOf, hname]
    exact Text.trim_eq_self fun x hx => Lexer.isBlank_of_isOperatorPart (hparts x hx)
  rw [hwritten]
  exact ⟨rfl, OperatorName.isValid_iff hne hparts⟩

/-- A method whose name is made of two tokens. -/
theorem isValid_name_of_reached_divided :
    ∃ d name, (Outline.ofSource .fixedUp "struct S \x7b static func /==(a: S) \x7b\x7d \x7d").at?
        [0, 0] = some d ∧ d.kind = .function ∧ d.place.child? .declaredName = some name ∧
      name.tree.leaves.head?.any (fun t => t.kind.isOperatorLike) = true ∧
      d.header.name = name.text ∧
      (OperatorName.isValid d.header.name = true ↔ '.' ∉ d.header.name.toList) := by
  have hfound : ((Outline.ofSource .fixedUp "struct S \x7b static func /==(a: S) \x7b\x7d \x7d").at?
      [0, 0]).any (fun d => d.kind == .function && (d.place.child? .declaredName).any fun name =>
        name.tree.leaves.head?.any fun t => t.kind.isOperatorLike) = true := by
    decide +kernel
  obtain ⟨d, hd, hcond⟩ := (Option.any_eq_true _ _).mp hfound
  rw [Bool.and_eq_true, beq_iff_eq] at hcond
  obtain ⟨hkind, hnamed⟩ := hcond
  obtain ⟨name, hname, hfirst⟩ := (Option.any_eq_true _ _).mp hnamed
  exact ⟨d, name, hd, hkind, hname, hfirst, isValid_name_of_reached .fixedUp hd hkind hname hfirst⟩

/-- The name of a function that is a range operator is no name of an operator, although the text is
    without fault. -/
theorem isValid_name_of_ellipsis :
    let source := "func ...(a: Int) \x7b\x7d"
    (parse source).ok = true ∧
    ¬ ∀ path d name, (Outline.ofSource .sourceAccurate source).at? path = some d →
      d.kind = .function → d.place.child? .declaredName = some name →
      name.tree.leaves.head?.any (fun t => t.kind.isOperatorLike) = true →
      OperatorName.isValid d.header.name = true := by
  intro source
  refine ⟨by decide +kernel, fun hall => ?_⟩
  have hfound : ((Outline.ofSource .sourceAccurate source).at? [0]).any (fun d =>
      d.kind == .function && !OperatorName.isValid d.header.name &&
        (d.place.child? .declaredName).any fun name =>
          name.tree.leaves.head?.any fun t => t.kind.isOperatorLike) = true := by
    decide +kernel
  obtain ⟨d, hd, hcond⟩ := (Option.any_eq_true _ _).mp hfound
  simp only [Bool.and_eq_true, beq_iff_eq, Bool.not_eq_true'] at hcond
  obtain ⟨⟨hkind, hinvalid⟩, hnamed⟩ := hcond
  obtain ⟨name, hname, hfirst⟩ := (Option.any_eq_true _ _).mp hnamed
  exact absurd (hinvalid.symm.trans (hall [0] d name hd hkind hname hfirst)) Bool.false_ne_true

end SwiftOutline
