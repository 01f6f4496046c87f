/-
  SwiftOutline.Proofs.TypeShape.RoundTrip

  Writing a shape and reading it again. What is written for a shape is parsed
  without problems, and its type has the shape that was written, except for what
  is not written of parameters.
-/
import SwiftOutline.Proofs.TypeShape.Parsed
import SwiftOutline.Proofs.TypeShape.Classified

namespace SwiftOutline

namespace TypeShape

variable {t : TypeShape}

/-- The type of a constant stands apart. -/
theorem apart_ofAscribed (u : Tree) : Apart (.ofAscribed u) :=
  ⟨rfl, fun _ hv => nomatch hv⟩

/-- If a shape can be written, the declaration of a constant with this type is a text without
    problems. Its outline is one variable, and the variable has the type of the same shape, up to
    what is not written of the parameters in it. -/
theorem type_of_constantText (h : Printable t) (m : ViewMode) :
    (parse t.constantText).ok = true ∧
    ∃ header place b, Outline.ofSource m t.constantText = [.mk header place (.binding b)] ∧
      header.name = "value" ∧ b.type.erased = t.erased := by
  have hparse := parse_constantText h
  obtain ⟨header, place, b, houtline, hname, htype, -⟩ :=
    outline_constant m h.classifiesTo.isType (congrArg Parse.tree hparse)
  refine ⟨by rw [hparse]; rfl, header, place, b, houtline, hname, ?_⟩
  rw [htype]
  exact h.classifiesTo.erased_eq _ (.ofAscribed t.tree) rfl (Nat.le_refl _) (apart_ofAscribed _)

/-- `@escaping ((key: [Set<Int?>?: Void], Int?...) async throws(Problem) -> (Int, () -> Int)?)?`. -/
theorem type_of_constantText_closure :
    let int := simple "Int" true
    let key : Parameter TypeShape :=
      .written (some "key") (dictionary (set int .generic true) (void false) .bracket false) false
    let outcome := tuple [.written none (simple "Int" false) false,
      .written none (closure [] (simple "Int" false) {} false false) false] true
    let t := closure [key, .written none int true] outcome ⟨some "async", some "throws(Problem)"⟩
      true true
    Printable t ∧ (parse t.constantText).ok = true ∧
      ∃ header place b, Outline.ofSource .fixedUp t.constantText =
        [.mk header place (.binding b)] ∧ header.name = "value" ∧ b.type.erased = t.erased := by
  intro int key outcome t
  have hint : IsPlainName "Int" :=
    ⟨by decide, by decide, by decide +kernel, by decide, by decide, by decide⟩
  have hproblem : IsPlainName "Problem" :=
    ⟨by decide, by decide, by decide +kernel, by decide, by decide, by decide⟩
  have hlabel : IsLabel "key" := ⟨.ident, by decide +kernel, by decide, by decide⟩
  have hsimple : ∀ o, Printable (simple "Int" o) := fun o => .simple hint (by decide) (by decide)
  have houtcome : Printable outcome := by
    refine .tuple (by decide) (by simp [Parameter.written]) ?_
    refine List.forall_mem_cons.mpr ⟨hsimple false, List.forall_mem_singleton.mpr ?_⟩
    exact .closure (fun _ hp => nomatch hp) (fun _ hp => nomatch hp) (hsimple false)
      ⟨.inl rfl, .inl rfl⟩
  have ht : Printable t := by
    refine .closure ?_ ?_ houtcome
      ⟨.inr (.inl rfl), .inr (.inr (.inr ⟨"Problem", hproblem, rfl⟩))⟩
    · exact List.forall_mem_cons.mpr ⟨fun l hl => Option.some.inj hl ▸ hlabel,
        List.forall_mem_singleton.mpr fun _ hl => nomatch hl⟩
    · exact List.forall_mem_cons.mpr ⟨.dictionary (.set (hsimple true)) .void,
        List.forall_mem_singleton.mpr (hsimple true)⟩
  exact ⟨ht, type_of_constantText ht .fixedUp⟩

end TypeShape

end SwiftOutline
