/-
  SwiftOutline.Proofs.Outline.Sections

  To which `switch` a section belongs. A section is in the list of the innermost
  `switch` that it stands in and of no other one, since there is nothing but
  conditional compilation between the two; so the search for the sections of a
  `switch`, which looks neither into a section nor into another `switch`, finds
  all that are its own.
-/
import SwiftOutline.Proofs.Outline.Members
import SwiftOutline.Proofs.Parser.Sections

namespace SwiftOutline

namespace Cursor

variable {c e x owner : Cursor} {k : NodeKind}

/-- The nodes of the sections of a `switch`. -/
def sections (c : Cursor) : List Cursor := c.gatherBelow visitCases

/-- The innermost `switch` that an element stands in. -/
def switch? (c : Cursor) : Option Cursor := c.ancestors.find? fun a => a.isKind .switchExpr

/-- An element stands in the `switch` `owner`, with nothing but conditional compilation in
    between. -/
structure OwnedBy (x owner : Cursor) : Prop where
  isSwitch : owner.isKind .switchExpr = true
  path : ∃ e ∈ owner.elements, x ∈ e.nodes ∧ ∀ b ∈ x.ancestorsIn e, b.isConditional = true

/-! ## Ancestors -/

/-- The way up from a node leads to the cursor that it is below, and on from there. -/
theorem ancestors_eq_append (hx : x ∈ c.nodes) : x.ancestors = x.ancestorsIn c ++ c.ancestors := by
  obtain ⟨inner, hpath⟩ := path_suffix_of_mem_nodes hx
  have hlength := congrArg List.length hpath
  rw [List.length_append, length_path, length_path] at hlength
  have hinner : x.above.length - c.above.length = inner.length := by omega
  have hdrop : x.ancestors.drop (x.above.length - c.above.length) = c.ancestors := by
    have hself : x.path.drop (inner.length + 1) = c.ancestors := by
      rw [← hpath, List.drop_append, List.drop_of_length_le (Nat.le_succ _)]
      simp [path]
    rw [hinner, ← hself, path, List.drop_succ_cons]
  rw [ancestorsIn, ← hdrop, List.take_append_drop]

/-- The ancestors of a child are its parent and the ancestors of that. -/
theorem ancestorsIn_child (hx : x ∈ c.nodes) (he : e ∈ x.elements) :
    e.ancestorsIn c = x :: x.ancestorsIn c := by
  have hdepth := length_above_le_of_mem_nodes hx
  have hlevels : e.above.length - c.above.length = x.above.length - c.above.length + 1 := by
    rw [length_above_of_mem_elements he]
    omega
  rw [ancestorsIn, ancestorsIn, ancestors_of_mem_elements he, path, hlevels, List.take_succ_cons]

/-- The innermost `switch` is the first one on the way up. -/
theorem switch?_eq (hc : c.isKind .switchExpr = true) (he : e ∈ c.elements) (hx : x ∈ e.nodes)
    (hbetween : ∀ b ∈ x.ancestorsIn e, b.isKind .switchExpr = false) : x.switch? = some c := by
  have hnone : (x.ancestorsIn e).find? (fun a => a.isKind .switchExpr) = none := by
    rw [List.find?_eq_none]
    intro b hb
    rw [hbetween b hb]
    exact Bool.false_ne_true
  rw [switch?, ancestors_eq_append hx, List.find?_append, hnone, Option.none_or,
    ancestors_of_mem_elements he, path, List.find?_cons, hc]

theorem isConditional_eq (h : c.tree.nodeKind? = some k) : c.isConditional = k.isConditional := by
  rw [isConditional, isKind, isKind, h]
  cases k <;> rfl

theorem isKind_of_isConditional (h : c.isConditional = true) :
    c.isKind .switchExpr = false ∧ c.isKind .switchCase = false := by
  simp only [isConditional, isKind, Bool.or_eq_true, beq_iff_eq] at h
  rcases h with h | h <;> simp [isKind, h]

theorem OwnedBy.switch?_eq (h : x.OwnedBy owner) : x.switch? = some owner := by
  obtain ⟨e, he, hx, hbetween⟩ := h.path
  exact Cursor.switch?_eq h.isSwitch he hx fun b hb => (isKind_of_isConditional (hbetween b hb)).1

/-! ## Owners -/

/-- Whatever has its place in a `switch` only, has an owner. -/
theorem exists_ownedBy {root : Cursor} (hroot : root.tree.Everywhere Tree.Owned)
    (hwants : ¬ root.tree.WantsSwitch) (hx : x ∈ root.nodes) (h : x.tree.WantsSwitch) :
    ∃ owner ∈ root.nodes, x.OwnedBy owner := by
  refine (forall_mem_nodes (P := fun c => c.tree.Everywhere Tree.Owned ∧
    (∀ y ∈ c.nodes, y ∈ root.nodes) ∧
      (c.tree.WantsSwitch → ∃ owner ∈ root.nodes, c.OwnedBy owner)) ?_ ?_ x hx).2.2 h
  · rintro c ⟨howned, hnodes, howner⟩ e he
    refine ⟨howned.of_mem_children (tree_mem_children he),
      fun y hy => hnodes y (mem_nodes_of_mem_elements he hy), fun hwants => ?_⟩
    obtain ⟨ke, hke, -⟩ := hwants.exists_nodeKind
    cases hkind : c.tree.nodeKind? with
    | none => exact absurd he (by simp [elements_of_leaf hkind])
    | some k =>
      have hself := mem_nodes_self hkind
      by_cases hswitch : k = .switchExpr
      · -- its parent is the `switch`
        refine ⟨c, hnodes c hself, by simp [isKind, hkind, hswitch], e, he, mem_nodes_self hke, ?_⟩
        rw [ancestorsIn_self]
        exact fun b hb => absurd hb List.not_mem_nil
      · have hcond : k.isConditional = true := by
          by_contra hcond
          exact howned.here hkind hswitch (by simpa using hcond) _ (tree_mem_children he) hwants
        obtain ⟨owner, howner, hisSwitch, d, hd, hcd, hbetween⟩ :=
          howner (.of_mem_children hkind hcond (tree_mem_children he) hwants)
        refine ⟨owner, howner, hisSwitch, d, hd, ?_, ?_⟩
        · exact mem_nodes_trans hcd (mem_nodes_of_mem_elements he (mem_nodes_self hke))
        · rw [ancestorsIn_child hcd he]
          exact List.forall_mem_cons.mpr ⟨(isConditional_eq hkind).trans hcond, hbetween⟩
  · exact ⟨hroot, fun _ => id, fun h => absurd h hwants⟩

/-! ## Lists of sections -/

theorem isTaken_visitCases : c.isTaken visitCases = c.isKind .switchCase := by
  rw [isTaken, isKind]
  cases c.tree.nodeKind? with
  | none => rfl
  | some k => cases k <;> rfl

theorem isEntered_visitCases (hk : c.tree.nodeKind? = some k) :
    c.isEntered visitCases = (!c.isKind .switchCase && !c.isKind .switchExpr) := by
  rw [isEntered, isKind, isKind, hk]
  cases k <;> rfl

theorem mem_sections : x ∈ c.sections ↔ x.isKind .switchCase = true ∧
    ∃ e ∈ c.elements, x ∈ e.nodes ∧
      ∀ b ∈ x.ancestorsIn e, b.isKind .switchCase = false ∧ b.isKind .switchExpr = false := by
  rw [sections, gatherBelow_eq, List.mem_flatMap, ← exists_and_left]
  refine exists_congr fun e => ?_
  rw [gather_eq_filter, List.mem_filter, Bool.and_eq_true, isTaken_visitCases, List.all_eq_true]
  have hentered : (∀ b ∈ x.ancestorsIn e, b.isEntered visitCases = true) ↔
      ∀ b ∈ x.ancestorsIn e, b.isKind .switchCase = false ∧ b.isKind .switchExpr = false := by
    refine forall₂_congr fun b hb => ?_
    obtain ⟨k, hk⟩ := exists_nodeKind_of_mem_ancestorsIn hb
    rw [isEntered_visitCases hk]
    simp
  rw [hentered]
  tauto

/-- A section is in the list of its owner. -/
theorem OwnedBy.mem_sections (h : x.OwnedBy owner) (hx : x.isKind .switchCase = true) :
    x ∈ owner.sections := by
  obtain ⟨e, he, hxe, hbetween⟩ := h.path
  refine Cursor.mem_sections.mpr ⟨hx, e, he, hxe, fun b hb => ?_⟩
  exact (isKind_of_isConditional (hbetween b hb)).symm

/-- What a `switch` lists stands in no other `switch` inside of it. -/
theorem switch?_of_mem_sections (hc : c.isKind .switchExpr = true) (hx : x ∈ c.sections) :
    x.switch? = some c := by
  obtain ⟨-, e, he, hxe, hbetween⟩ := mem_sections.mp hx
  exact switch?_eq hc he hxe fun b hb => (hbetween b hb).2

end Cursor

/-- The declaration that a `switch` introduces has its sections as cases. -/
theorem Declaration.read_of_switchExpr {c : Cursor} (h : c.isKind .switchExpr = true) :
    ∃ ds, Declaration.read .sourceAccurate c =
      [.mk (Header.ofCursor .sourceAccurate c) c
        (.switch (c.sections.map (SwitchCase.ofCursor .sourceAccurate)) ds)] := by
  have hkind : c.tree.nodeKind? = some .switchExpr := Cursor.nodeKind?_of_isKind h
  have hvariable : c.isKind .variableDecl = false := by rw [Cursor.isKind, hkind]; rfl
  rw [read_eq_readWith, readWith, hvariable, if_neg (by decide)]
  simp only [Details.ofCursor?, NominalForm.ofCursor?, hkind]
  exact ⟨_, rfl⟩

/-! ## Texts -/

namespace Cursor

variable {c x owner : Cursor} {source : String}

/-- In the tree of a text every section has an owner. -/
theorem exists_ownedBy_of_switchCase (hx : x ∈ (ofTree (parse source).tree).nodes)
    (hk : x.isKind .switchCase = true) :
    ∃ owner ∈ (ofTree (parse source).tree).nodes, x.OwnedBy owner := by
  refine exists_ownedBy (owned_parse source) (fun hwants => ?_) hx
    (.of_nodeKind? (nodeKind?_of_isKind hk))
  -- the root has its place in no `switch`
  obtain ⟨k, hk, hcase⟩ := hwants.exists_nodeKind
  obtain rfl : k = .sourceFile := Option.some.inj (hk.symm.trans (nodeKind?_parse source))
  exact absurd hcase (by decide)

/-- A `switch` lists the sections in it that stand in no other `switch` inside of it. -/
theorem mem_sections_iff (hc : c ∈ (ofTree (parse source).tree).nodes)
    (hswitch : c.isKind .switchExpr = true) :
    x ∈ c.sections ↔ x ∈ (ofTree (parse source).tree).nodes ∧ x.isKind .switchCase = true ∧
      x.switch? = some c := by
  constructor
  · intro hx
    exact ⟨mem_nodes_trans hc (mem_nodes_of_mem_gatherBelow hx), (mem_sections.mp hx).1,
      switch?_of_mem_sections hswitch hx⟩
  · rintro ⟨hx, hkind, hinnermost⟩
    obtain ⟨owner, -, hown⟩ := exists_ownedBy_of_switchCase hx hkind
    obtain rfl : c = owner := Option.some.inj (hinnermost.symm.trans hown.switch?_eq)
    exact hown.mem_sections hkind

/-- Between a section and its owner there is nothing but conditional compilation. -/
theorem OwnedBy.ancestors_eq (h : x.OwnedBy owner) :
    ∃ between above, x.ancestors = between ++ owner :: above ∧
      ∀ b ∈ between, b.isKind .ifConfigDecl = true ∨ b.isKind .ifConfigClause = true := by
  obtain ⟨e, he, hx, hbetween⟩ := h.path
  refine ⟨x.ancestorsIn e, owner.ancestors, ?_, fun b hb => ?_⟩
  · rw [ancestors_eq_append hx, ancestors_of_mem_elements he, Cursor.path]
  · exact Bool.or_eq_true_iff.mp (hbetween b hb)

end Cursor

open Cursor

/-- In the tree of a text, every section has one owner: the innermost `switch` around it, which
    nothing but conditional compilation parts it from, and which is the only one that lists it. The
    cases of a `switch` are the sections that it owns, in the order of the text. -/
theorem sections_have_one_owner (source : String) :
    let nodes := (Cursor.ofTree (parse source).tree).nodes
    (∀ x ∈ nodes, x.isKind .switchCase = true →
      ∃ owner ∈ nodes, owner.isKind .switchExpr = true ∧
        (∃ between above, x.ancestors = between ++ owner :: above ∧
          ∀ b ∈ between, b.isKind .ifConfigDecl = true ∨ b.isKind .ifConfigClause = true) ∧
        x.switch? = some owner ∧
        ∀ c ∈ nodes, c.isKind .switchExpr = true → (x ∈ c.sections ↔ c = owner)) ∧
    ∀ c ∈ nodes, c.isKind .switchExpr = true →
      (∃ ds, Declaration.read .sourceAccurate c =
        [.mk (Header.ofCursor .sourceAccurate c) c
          (.switch (c.sections.map (SwitchCase.ofCursor .sourceAccurate)) ds)]) ∧
      (∀ x, x ∈ c.sections ↔
        x ∈ nodes ∧ x.isKind .switchCase = true ∧ x.switch? = some c) ∧
      c.sections.Sublist c.nodes ∧ c.sections.Pairwise EndsBefore := by
  intro nodes
  constructor
  · intro x hx hkind
    obtain ⟨owner, howner, hown⟩ := exists_ownedBy_of_switchCase hx hkind
    refine ⟨owner, howner, hown.isSwitch, hown.ancestors_eq, hown.switch?_eq, ?_⟩
    intro c hc hswitch
    rw [mem_sections_iff hc hswitch, hown.switch?_eq, Option.some.injEq]
    exact ⟨fun h => h.2.2.symm, fun h => ⟨hx, hkind, h.symm⟩⟩
  · intro c hc hswitch
    exact ⟨Declaration.read_of_switchExpr hswitch, fun x => mem_sections_iff hc hswitch,
      sublist_gatherBelow _ _, (endsBefore_gather _ _).2⟩

/-- A `switch` in a closure of the subject, and one in a section in conditional compilation. -/
example :
    let source := "switch a(\x7b switch b \x7b case 2: c \x7d \x7d) \x7b\n" ++
      "#if D\ncase 1: switch e \x7b default: f \x7d\n#endif\ncase 3: g \x7d"
    (((Cursor.ofTree (parse source).tree).nodes.filter fun c => c.isKind .switchExpr).map fun c =>
      (switchCases .sourceAccurate c).map SwitchCase.text) =
    [["case 1: switch e \x7b default: f \x7d", "case 3: g"], ["case 2: c"], ["default: f"]] := by
  decide +kernel

end SwiftOutline
