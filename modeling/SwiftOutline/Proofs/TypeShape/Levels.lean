/-
  SwiftOutline.Proofs.TypeShape.Levels

  How many levels of nodes are read to classify a type. The parts of a type that
  are classified are smaller than the type, so as many levels as it has are enough,
  and more change nothing.
-/
import SwiftOutline.Proofs.TypeShape.Apart

namespace SwiftOutline

namespace TypeShape

variable {f g : Cursor → TypeShape} {c d : Cursor} {bound n : Nat}

theorem height_lt_of_mem_elements (h : d ∈ c.elements) : d.tree.height < c.tree.height :=
  Tree.height_lt_of_mem_children (Cursor.tree_mem_children h)

/-! ## Parts -/

section Parts

variable (hfg : ∀ x : Cursor, x.tree.height < bound → f x = g x)

include hfg

theorem inner_congr (hc : c.tree.height ≤ bound) : inner f c = inner g c := by
  unfold inner
  cases h : c.typeChild? with
  | none => rfl
  | some d =>
    have hd := height_lt_of_mem_elements (List.mem_of_find?_eq_some h)
    rw [Option.map_some, Option.map_some, hfg d (by omega)]

theorem ofElement_congr (hc : c.tree.height ≤ bound) : ofElement f c = ofElement g c := by
  have htype : (c.typeIn? .sourceAccurate).map f = (c.typeIn? .sourceAccurate).map g := by
    rw [Cursor.typeIn?_eq]
    refine Option.map_congr fun d hd => hfg d ?_
    have hlt := height_lt_of_mem_elements (List.mem_of_find?_eq_some hd)
    omega
  unfold ofElement Parameter.ofCursorWith
  dsimp only
  rw [htype]

theorem map_ofElement_congr (hc : c.tree.height ≤ bound) :
    (tupleElements c).map (ofElement f) = (tupleElements c).map (ofElement g) := by
  refine List.map_congr_left fun e he => ofElement_congr hfg ?_
  have hlt := height_lt_of_mem_elements (mem_elements_of_mem_tupleElements he)
  omega

end Parts

/-! ## Kinds of types -/

theorem height_lt_of_genericForm? {name name' : String} {arguments : Option (List Cursor)}
    {es as : List Cursor} (h : genericForm? name arguments es = some (name', as))
    (hes : ∀ e ∈ es, e.tree.height < bound)
    (harguments : ∀ a ∈ arguments.getD [], a.tree.height < bound) :
    ∀ a ∈ as, a.tree.height < bound := by
  induction es generalizing name arguments with
  | nil =>
    simp only [genericForm?, Option.some.injEq, Prod.mk.injEq] at h
    exact h.2 ▸ harguments
  | cons e es ih =>
    have hrest : ∀ e ∈ es, e.tree.height < bound := fun e he => hes e (List.mem_cons_of_mem _ he)
    rw [genericForm?] at h
    split at h
    · split at h
      · exact ih h hrest harguments
      · split at h
        · exact nomatch h
        · exact ih h hrest (by simp)
    · split at h
      · refine ih h hrest fun a ha => ?_
        obtain ⟨d, hd, had⟩ := List.mem_filterMap.mp ha
        have hlt := height_lt_of_mem_elements (List.mem_of_find?_eq_some had)
        have hlt' := height_lt_of_mem_elements (List.mem_filter.mp (List.mem_filter.mp hd).1).1
        have hlt'' := hes e List.mem_cons_self
        omega
      · exact nomatch h

section Kinds

variable (hfg : ∀ x : Cursor, x.tree.height < c.tree.height → f x = g x)

include hfg

theorem ofNamed_congr : ofNamed f c = ofNamed g c := by
  have hlt : ∀ a ∈ ((genericForm? "" none c.elements).getD (c.description, [])).2,
      a.tree.height < c.tree.height := by
    cases h : genericForm? "" none c.elements with
    | none => exact nofun
    | some form =>
      exact height_lt_of_genericForm? h (fun e he => height_lt_of_mem_elements he) (by simp)
  have harguments := List.map_congr_left fun a ha => hfg a (hlt a ha)
  unfold ofNamed
  generalize (genericForm? "" none c.elements).getD (c.description, []) = form at harguments
  dsimp only
  rw [harguments]

theorem ofTuple_congr : ofTuple f c = ofTuple g c := by
  have helements := map_ofElement_congr hfg (Nat.le_refl _)
  unfold ofTuple
  split
  · rfl
  · next e he =>
    rw [he] at helements
    have hmem : e ∈ tupleElements c := by rw [he]; exact List.mem_singleton_self e
    have hlt := height_lt_of_mem_elements (mem_elements_of_mem_tupleElements hmem)
    have helement : ofElement f e = ofElement g e := List.singleton_inj.mp helements
    rw [inner_congr hfg (Nat.le_of_lt hlt), helement]
  · rw [helements]

theorem ofFunction_congr : ofFunction f c = ofFunction g c := by
  have hinput : ((c.child? .tupleType).map fun t => (tupleElements t).map (ofElement f)) =
      (c.child? .tupleType).map fun t => (tupleElements t).map (ofElement g) := by
    refine Option.map_congr fun t ht => map_ofElement_congr hfg ?_
    exact Nat.le_of_lt (height_lt_of_mem_elements (List.mem_of_find?_eq_some ht))
  have houtput : (c.child? .returnClause).map (inner f) =
      (c.child? .returnClause).map (inner g) := by
    refine Option.map_congr fun t ht => inner_congr hfg ?_
    exact Nat.le_of_lt (height_lt_of_mem_elements (List.mem_of_find?_eq_some ht))
  unfold ofFunction
  rw [hinput, houtput]

/-- A type is classified by what is smaller than it. -/
theorem classifyWith_congr : classifyWith f c = classifyWith g c := by
  have htypes : (c.children.filter Cursor.isType).map f =
      (c.children.filter Cursor.isType).map g := by
    refine List.map_congr_left fun d hd => hfg d (height_lt_of_mem_elements ?_)
    exact (List.mem_filter.mp (List.mem_filter.mp hd).1).1
  unfold classifyWith
  rw [ofNamed_congr hfg, ofTuple_congr hfg, ofFunction_congr hfg, inner_congr hfg (Nat.le_refl _),
    htypes]

end Kinds

/-! ## Levels -/

theorem classifyWith_of_leaf (h : c.tree.nodeKind? = none) : classifyWith f c = empty := by
  rw [classifyWith, h]

theorem nodeKind?_of_height_eq_zero {t : Tree} (h : t.height = 0) : t.nodeKind? = none := by
  cases t with
  | leaf t => rfl
  | node k children => exact absurd h (Nat.succ_ne_zero _)

theorem classifyWithin_congr {m n : Nat} (hm : c.tree.height ≤ m) (hn : c.tree.height ≤ n) :
    classifyWithin m c = classifyWithin n c := by
  induction m generalizing n c with
  | zero =>
    cases n with
    | zero => rfl
    | succ n =>
      have hleaf := nodeKind?_of_height_eq_zero (Nat.le_zero.mp hm)
      rw [classifyWithin, classifyWithin, classifyWith_of_leaf hleaf]
  | succ m ih =>
    cases n with
    | zero =>
      have hleaf := nodeKind?_of_height_eq_zero (Nat.le_zero.mp hn)
      rw [classifyWithin, classifyWithin, classifyWith_of_leaf hleaf]
    | succ n => exact classifyWith_congr fun x hx => ih (by omega) (by omega)

/-- A type has its shape from its parts, which have theirs from as many levels as they have. -/
theorem classify_eq (c : Cursor) : classify c = classifyWith classify c := by
  have hlevels : classify c = classifyWithin (c.tree.height + 1) c :=
    classifyWithin_congr (Nat.le_refl _) (Nat.le_succ _)
  rw [hlevels, classifyWithin]
  exact classifyWith_congr fun x hx => classifyWithin_congr (Nat.le_of_lt hx) (Nat.le_refl _)

end TypeShape

end SwiftOutline
