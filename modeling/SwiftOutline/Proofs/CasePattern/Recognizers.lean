/-
  SwiftOutline.Proofs.CasePattern.Recognizers

  The recognisers of patterns exclude each other. The kinds of a pattern and of
  its only child leave one recogniser at most that can accept the pattern, so the
  order in which they are tried does not matter.
-/
import SwiftOutline.CasePattern.Classify
import SwiftOutline.Parse

namespace SwiftOutline

namespace CasePattern

variable {c p : Cursor} {shape : CasePattern}

/-! ## What a recogniser accepts -/

/-- The place among `recognizers` of the only one that can accept a pattern of kind `k?` whose only
    child is of kind `inner?`. -/
def candidate? (k? inner? : Option NodeKind) : Option Nat :=
  match k?, inner? with
  | some .tuplePattern, _ => some 0
  | some .expressionPattern, some .memberAccessExpr => some 1
  | some .isTypePattern, _ => some 2
  | some .expressionPattern, some .functionCallExpr => some 3
  | some .valueBindingPattern, some .expressionPattern => some 4
  | some .valueBindingPattern, some .identifierPattern => some 5
  | some .valueBindingPattern, some .asPattern => some 5
  | some .valueBindingPattern, some .tuplePattern => some 5
  | some .expressionPattern, some .literalExpr => some 6
  | _, _ => none

/-- The place of the only recogniser that can accept a pattern. -/
def candidateOf? (c : Cursor) : Option Nat :=
  candidate? c.tree.nodeKind? ((soleChild? c).bind fun e => e.tree.nodeKind?)

theorem candidateOf?_eq {k : NodeKind} {inner : Cursor} (hc : c.isKind k = true)
    (hinner : soleChild? c = some inner) :
    candidateOf? c = candidate? (some k) inner.tree.nodeKind? := by
  rw [candidateOf?, hinner, eq_of_beq hc]
  rfl

theorem isKind_of_memberName? {name : String} (h : memberName? c = some name) :
    c.isKind .memberAccessExpr = true := by
  rw [memberName?] at h
  split at h
  · next hkind => exact hkind
  · cases h

theorem candidateOf?_of_tuple? (h : tuple? c = some shape) : candidateOf? c = some 0 := by
  rw [tuple?] at h
  split at h
  · next hc =>
    rw [candidateOf?, eq_of_beq hc]
    rfl
  · cases h

theorem exists_of_member? (h : member? c = some shape) :
    c.isKind .expressionPattern = true ∧ ∃ e name, soleChild? c = some e ∧
      memberName? e = some name ∧ shape = member name := by
  rw [member?] at h
  split at h
  · next hc =>
    obtain ⟨name, hname, rfl⟩ := Option.map_eq_some_iff.mp h
    obtain ⟨e, he, hname⟩ := Option.bind_eq_some_iff.mp hname
    exact ⟨hc, e, name, he, hname, rfl⟩
  · cases h

theorem candidateOf?_of_member? (h : member? c = some shape) : candidateOf? c = some 1 := by
  obtain ⟨hc, e, name, he, hname, -⟩ := exists_of_member? h
  rw [candidateOf?_eq hc he, eq_of_beq (isKind_of_memberName? hname)]
  rfl

theorem candidateOf?_of_typeTest? (h : typeTest? c = some shape) : candidateOf? c = some 2 := by
  rw [typeTest?] at h
  split at h
  · next hc =>
    rw [candidateOf?, eq_of_beq hc]
    rfl
  · cases h

/-- A member that is called is an expression pattern of a call alone. -/
theorem exists_of_memberCall? {call : String × List (Option Cursor)}
    (h : memberCall? c = some call) : c.isKind .expressionPattern = true ∧
      ∃ e, soleChild? c = some e ∧ e.isKind .functionCallExpr = true := by
  rw [memberCall?] at h
  split at h
  · simp at h
  · next hc =>
    simp only [Option.bind_eq_bind, Option.pure_def] at h
    obtain ⟨e, he, -⟩ := Option.bind_eq_some_iff.mp h
    obtain ⟨he, hkind⟩ := Option.filter_eq_some_iff.mp he
    exact ⟨by simpa using hc, e, he, hkind⟩

theorem candidateOf?_of_innerBinding? (h : innerBinding? c = some shape) :
    candidateOf? c = some 3 := by
  rw [innerBinding?] at h
  obtain ⟨call, hcall, -⟩ := Option.bind_eq_some_iff.mp h
  obtain ⟨hc, e, he, hkind⟩ := exists_of_memberCall? hcall
  rw [candidateOf?_eq hc he, eq_of_beq hkind]
  rfl

/-- A binding pattern begins with its keyword and has one child. -/
theorem exists_of_memberBinding? (h : memberBinding? c = some shape) :
    c.isKind .valueBindingPattern = true ∧ ∃ e, soleChild? c = some e ∧
      e.isKind .expressionPattern = true ∧ shape.isUnsupported = false := by
  rw [memberBinding?] at h
  split at h
  · simp at h
  · next hc =>
    simp only [Option.bind_eq_bind] at h
    obtain ⟨keyword, -, h⟩ := Option.bind_eq_some_iff.mp h
    obtain ⟨e, he, h⟩ := Option.bind_eq_some_iff.mp h
    refine ⟨by simpa using hc, e, he, ?_⟩
    split at h
    · next hmember => exact ⟨(exists_of_member? hmember).1, by cases h; rfl⟩
    · obtain ⟨call, hcall, h⟩ := Option.bind_eq_some_iff.mp h
      obtain ⟨names, -, h⟩ := Option.bind_eq_some_iff.mp h
      exact ⟨(exists_of_memberCall? hcall).1, by cases h; rfl⟩

theorem candidateOf?_of_memberBinding? (h : memberBinding? c = some shape) :
    candidateOf? c = some 4 := by
  obtain ⟨hc, e, he, hkind, -⟩ := exists_of_memberBinding? h
  rw [candidateOf?_eq hc he, eq_of_beq hkind]
  rfl

theorem exists_of_binding? (h : binding? c = some shape) :
    c.isKind .valueBindingPattern = true ∧ ∃ e k, soleChild? c = some e ∧
      e.tree.nodeKind? = some k ∧ k ∈ [NodeKind.identifierPattern, .asPattern, .tuplePattern] ∧
      shape.isUnsupported = false := by
  rw [binding?] at h
  split at h
  · simp at h
  · next hc =>
    simp only [Option.bind_eq_bind] at h
    obtain ⟨keyword, -, h⟩ := Option.bind_eq_some_iff.mp h
    obtain ⟨e, he, h⟩ := Option.bind_eq_some_iff.mp h
    refine ⟨by simpa using hc, e, ?_⟩
    split at h
    · next hkind => exact ⟨_, he, hkind, by decide, by cases h; rfl⟩
    · next hkind =>
      obtain ⟨bound, -, h⟩ := Option.bind_eq_some_iff.mp h
      exact ⟨_, he, hkind, by decide, by cases h; rfl⟩
    · next hkind =>
      obtain ⟨names, -, h⟩ := Option.bind_eq_some_iff.mp h
      exact ⟨_, he, hkind, by decide, by cases h; rfl⟩
    · cases h

theorem candidateOf?_of_binding? (h : binding? c = some shape) : candidateOf? c = some 5 := by
  obtain ⟨hc, e, k, he, hkind, hk, -⟩ := exists_of_binding? h
  rw [candidateOf?_eq hc he, hkind]
  simp only [List.mem_cons, List.not_mem_nil, or_false] at hk
  rcases hk with rfl | rfl | rfl <;> rfl

theorem candidateOf?_of_literal? (h : literal? c = some shape) : candidateOf? c = some 6 := by
  rw [literal?] at h
  split at h
  · next hliteral =>
    obtain ⟨hc, hany⟩ := Bool.and_eq_true_iff.mp hliteral
    obtain ⟨e, he, hkind⟩ := (Option.any_eq_true _ _).mp hany
    rw [candidateOf?_eq hc he, eq_of_beq hkind]
    rfl
  · cases h

/-- Every recogniser accepts only what is left to it. -/
theorem candidateOf?_of_accepts {i : Nat} (hi : i < recognizers.length)
    (h : recognizers[i] c = some shape) : candidateOf? c = some i := by
  have hcases : i = 0 ∨ i = 1 ∨ i = 2 ∨ i = 3 ∨ i = 4 ∨ i = 5 ∨ i = 6 := by
    have hlength : recognizers.length = 7 := rfl
    omega
  rcases hcases with rfl | rfl | rfl | rfl | rfl | rfl | rfl
  · exact candidateOf?_of_tuple? h
  · exact candidateOf?_of_member? h
  · exact candidateOf?_of_typeTest? h
  · exact candidateOf?_of_innerBinding? h
  · exact candidateOf?_of_memberBinding? h
  · exact candidateOf?_of_binding? h
  · exact candidateOf?_of_literal? h

/-- What is recognised has one of the known shapes. -/
theorem isUnsupported_of_accepts {r : Cursor → Option CasePattern} (hr : r ∈ recognizers)
    (h : r c = some shape) : shape.isUnsupported = false := by
  simp only [recognizers, List.mem_cons, List.not_mem_nil, or_false] at hr
  rcases hr with rfl | rfl | rfl | rfl | rfl | rfl | rfl
  · rw [tuple?] at h
    split at h <;> cases h
    rfl
  · obtain ⟨-, e, name, -, -, rfl⟩ := exists_of_member? h
    rfl
  · rw [typeTest?] at h
    split at h <;> cases h
    rfl
  · rw [innerBinding?] at h
    obtain ⟨call, -, h⟩ := Option.bind_eq_some_iff.mp h
    obtain ⟨names, -, h⟩ := Option.bind_eq_some_iff.mp h
    split at h <;> cases h
    rfl
  · obtain ⟨-, e, -, -, hshape⟩ := exists_of_memberBinding? h
    exact hshape
  · obtain ⟨-, e, k, -, -, -, hshape⟩ := exists_of_binding? h
    exact hshape
  · rw [literal?] at h
    split at h <;> cases h
    rfl

/-! ## The order of the recognisers -/

/-- No two recognisers accept the same pattern. -/
theorem pairwise_recognizers (c : Cursor) :
    recognizers.Pairwise fun r r' => r c = none ∨ r' c = none := by
  refine List.pairwise_iff_getElem.mpr fun i j hi hj hij => ?_
  cases hfirst : recognizers[i] c with
  | none => exact .inl rfl
  | some shape =>
    cases hsecond : recognizers[j] c with
    | none => exact .inr rfl
    | some shape' =>
      have heq := (candidateOf?_of_accepts hi hfirst).symm.trans (candidateOf?_of_accepts hj hsecond)
      exact absurd (Option.some.inj heq) (Nat.ne_of_lt hij)

/-- If at most one of some functions has a value, the first value is found in any order. -/
theorem findSome?_of_perm {α β : Type} {a : α} {rs rs' : List (α → Option β)} (h : rs.Perm rs')
    (hrs' : rs'.Pairwise fun r r' => r a = none ∨ r' a = none) :
    (rs.findSome? fun r => r a) = rs'.findSome? fun r => r a := by
  induction h with
  | nil => rfl
  | cons r _ ih => rw [List.findSome?_cons, List.findSome?_cons, ih hrs'.of_cons]
  | swap r r' rs =>
    rw [List.findSome?_cons, List.findSome?_cons, List.findSome?_cons, List.findSome?_cons]
    obtain hnone | hnone := List.rel_of_pairwise_cons hrs' List.mem_cons_self <;> rw [hnone]
  | trans _ h ih ih' =>
    have hsymm : ∀ {r r' : α → Option β}, r a = none ∨ r' a = none → r' a = none ∨ r a = none :=
      Or.symm
    exact (ih (hrs'.perm h.symm hsymm)).trans (ih' hrs')

/-- A pattern has one of the known shapes if and only if a recogniser accepts it. -/
theorem isUnsupported_classify :
    (classify c).isUnsupported = true ↔
      ∀ p ∈ patternOf? c, ∀ r ∈ recognizers, r p = none := by
  rw [classify, classifyBy]
  cases hpattern : patternOf? c with
  | none => simp [isUnsupported]
  | some p =>
    rw [Option.bind_some]
    cases hfound : recognizers.findSome? fun r => r p with
    | none => simpa [isUnsupported] using List.findSome?_eq_none_iff.mp hfound
    | some shape =>
      obtain ⟨r, hr, hshape⟩ := List.exists_of_findSome?_eq_some hfound
      rw [Option.getD_some, isUnsupported_of_accepts hr hshape]
      refine ⟨fun h => absurd h Bool.false_ne_true, fun h => ?_⟩
      rw [h p rfl r hr] at hshape
      cases hshape

/-- At most one recogniser accepts a place of a tree, so that every order of them gives the same
    shape, and the shape is none of the known ones if and only if no recogniser accepts the
    pattern. -/
theorem recognizers_exclusive (c : Cursor) :
    (recognizers.Pairwise fun r r' => r c = none ∨ r' c = none) ∧
    (∀ rs, rs.Perm recognizers → classifyBy rs c = classify c) ∧
    ((classify c).isUnsupported = true ↔
      ∀ p ∈ patternOf? c, ∀ r ∈ recognizers, r p = none) := by
  refine ⟨pairwise_recognizers c, fun rs hrs => ?_, isUnsupported_classify⟩
  rw [classify, classifyBy, classifyBy]
  congr 1
  exact Option.bind_congr fun p _ => findSome?_of_perm hrs (pairwise_recognizers p)

/-- The recognisers in reverse order, on an item with names bound behind a member. -/
theorem recognizers_exclusive_reversed :
    let nodes := (Cursor.ofTree (parse "switch v \x7b case let .a(x): break \x7d").tree).nodes
    ∃ c ∈ nodes, c.isKind .caseItem = true ∧ recognizers.reverse.Perm recognizers ∧
      classifyBy recognizers.reverse c = classify c ∧ (classify c).isUnsupported = false := by
  intro nodes
  have hitem : ∃ c ∈ nodes, c.isKind .caseItem = true ∧ (classify c).isUnsupported = false := by
    decide +kernel
  obtain ⟨c, hc, hkind, hknown⟩ := hitem
  have hperm := List.reverse_perm recognizers
  exact ⟨c, hc, hkind, hperm, (recognizers_exclusive c).2.1 _ hperm, hknown⟩

end CasePattern

end SwiftOutline
