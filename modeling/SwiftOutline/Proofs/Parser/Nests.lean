/-
  SwiftOutline.Proofs.Parser.Nests

  Where a program makes a node of an element it has produced already. It does so
  only when that element is a node which it has made just before, and such a node
  always gets a kind. One bit is traced: whether the newest element is a node
  behind which nothing has been produced.
-/
import SwiftOutline.Proofs.Parser.Kinds

namespace SwiftOutline

namespace Parser

variable {α β : Type} {F : Forms} {top : Bool} {P : α → Prop} {Q Q' : α → Bool → Prop}

/-- `Nests p top Q` says that `p` puts nodes around nodes only that it has made just before, if it
    begins behind such a node in the case of `top`; its result and whether it ends behind such a
    node satisfy `Q`. What a rule comes to is not traced, and what a loop comes to only as far as
    every round keeps it. -/
def Nests : {α : Type} → Parser α → Bool → (α → Bool → Prop) → Prop
  | _, .done a, top, Q => Q a top
  | _, .look next, top, Q => ∀ v, Nests (next v) top Q
  | _, .consume next, _, Q => Nests next false Q
  | _, .complain _ next, top, Q => Nests next top Q
  | _, .group adopt body next, top, Q =>
    (adopt = true → top = true) ∧
      Nests body false fun r _ =>
        (adopt = true → r.2.isSome = true) ∧ Nests (next r.1) r.2.isSome Q
  | _, .directive body next, top, Q => Nests body top fun b top => Nests (next b) top Q
  | _, .call _ next, _, Q => ∀ b, Nests (next b) false Q
  | _, .loop round _ next, top, Q =>
    ∃ known : Bool, (known = true → top = true) ∧
      (∀ a, Nests (round a) known fun _ top => known = true → top = true) ∧
        ∀ a, Nests (next a) known Q

theorem Nests.mono {p : Parser α} (h : Nests p top Q) (hQ : ∀ a t, Q a t → Q' a t) :
    Nests p top Q' := by
  induction p generalizing top with
  | done a => exact hQ a top h
  | look next ih => exact fun v => ih v (h v) hQ
  | consume next ih => exact ih h hQ
  | complain p next ih => exact ih h hQ
  | group adopt body next ihb ihn =>
    exact ⟨h.1, ihb h.2 fun r _ hr => ⟨hr.1, ihn r.1 hr.2 hQ⟩⟩
  | directive body next ihb ihn => exact ihb h fun b _ hb => ihn b hb hQ
  | call r next ih => exact fun b => ih b (h b) hQ
  | loop round init next _ ihn =>
    obtain ⟨known, htop, hround, hnext⟩ := h
    exact ⟨known, htop, hround, fun a => ihn a (hnext a) hQ⟩

theorem Nests.andThen {p : Parser α} {f : α → Parser β} {Q : β → Bool → Prop}
    (h : Nests p top fun a t => Nests (f a) t Q) : Nests (p.andThen f) top Q := by
  induction p generalizing top with
  | done a => exact h
  | look next ih => exact fun v => ih v (h v)
  | consume next ih => exact ih h
  | complain p next ih => exact ih h
  | group adopt body next _ ihn =>
    exact ⟨h.1, h.2.mono fun r _ hr => ⟨hr.1, ihn r.1 hr.2⟩⟩
  | directive body next _ ihn => exact Nests.mono (p := body) h fun b _ hb => ihn b hb
  | call r next ih => exact fun b => ih b (h b)
  | loop round init next _ ihn =>
    obtain ⟨known, htop, hround, hnext⟩ := h
    exact ⟨known, htop, hround, fun a => ihn a (hnext a)⟩

theorem Nests.bind {p : Parser α} {f : α → Parser β} {Q : β → Bool → Prop}
    (h : Nests p top fun a t => Nests (f a) t Q) : Nests (p >>= f) top Q :=
  h.andThen

/-- A program that puts nodes around nothing may begin anywhere. -/
theorem Nests.of_makes (hF : ¬ F.adopts) {p : Parser α} (h : Makes F p P) :
    Nests p top fun a _ => P a := by
  induction p generalizing top with
  | done a => exact h
  | look next ih => exact fun v => ih v (h v)
  | consume next ih => exact ih h
  | complain p next ih => exact ih h
  | group adopt body next ihb ihn =>
    have hadopt : adopt ≠ true := by
      obtain ⟨r, hr⟩ := h.1.exists_result
      exact fun ha => hF (hr.1 ha)
    exact ⟨fun ha => absurd ha hadopt, (ihb h.1).mono fun r _ _ =>
      ⟨fun ha => absurd ha hadopt, ihn r.1 (h.2 r.1)⟩⟩
  | directive body next ihb ihn => exact (ihb h.1).mono fun b _ _ => ihn b (h.2 b)
  | call r next ih => exact fun b => ih b (h.2 b)
  | loop round init next ihr ihn =>
    exact ⟨false, nofun, fun a => (ihr a (h.1 a)).mono fun _ _ _ => nofun, fun a => ihn a (h.2 a)⟩

/-! ## Operations -/

@[simp] theorem nests_pure (a : α) : Nests (pure a) top Q ↔ Q a top := Iff.rfl

@[simp] theorem nests_ite (c : Prop) [Decidable c] (p q : Parser α) :
    Nests (if c then p else q) top Q ↔ (c → Nests p top Q) ∧ (¬ c → Nests q top Q) := by
  split <;> simp [*]

theorem nests_view {Q : View → Bool → Prop} (h : ∀ v, Q v top) : Nests view top Q := h

theorem nests_kind {Q : TokenKind → Bool → Prop} (h : ∀ v : View, Q v.kind top) :
    Nests kind top Q := h

theorem nests_sees {k : TokenKind} {Q : Bool → Bool → Prop} (h : ∀ b, Q b top) :
    Nests (sees k) top Q :=
  fun _ => h _

theorem nests_node (k : NodeKind) {p : Parser α} (h : Nests p false fun a _ => Q a true) :
    Nests (node k p) top Q :=
  ⟨nofun, .bind (h.mono fun _ _ hQ => ⟨nofun, hQ⟩)⟩

theorem nests_node? {p : Parser (Option NodeKind)} {Q : Bool → Bool → Prop}
    (h : Nests p false fun k? _ => Q k?.isSome k?.isSome) : Nests (node? p) top Q :=
  ⟨nofun, .bind (h.mono fun _ _ hQ => ⟨nofun, hQ⟩)⟩

theorem nests_wrap (k : NodeKind) {p : Parser α} (h : Nests p false fun a _ => Q a true) :
    Nests (wrap k p) true Q :=
  ⟨fun _ => rfl, .bind (h.mono fun _ _ hQ => ⟨fun _ => rfl, hQ⟩)⟩

theorem nests_repeating_any {body : Parser Bool} (h : Nests body false fun _ _ => True) :
    Nests (repeating body) top fun _ _ => True :=
  ⟨false, nofun, fun _ => Nests.bind (h.mono fun _ _ _ => nofun), fun _ => trivial⟩

/-- Rounds that end behind a node if they begin behind one. -/
theorem nests_repeating {body : Parser Bool} (h : Nests body true fun _ t => t = true) :
    Nests (repeating body) true fun _ t => t = true := by
  refine ⟨true, id, fun _ => Nests.bind (h.mono fun _ _ ht _ => ht), fun _ => rfl⟩

end Parser

namespace Grammar

open SwiftOutline.Parser

/-! ## Programs that put nodes around nothing -/

instance : HasItems .flat where
  node _ := trivial
  argument _ := trivial
  name _ := trivial
  specifiers := trivial
  rule _ := trivial
  item _ := trivial
  cases := trivial

instance : HasTypes .flat := ⟨fun _ => trivial⟩

instance : HasBlocks .flat := ⟨trivial⟩

variable {α : Type} {top : Bool} {p : Parser α} {P : α → Prop}

theorem nests_of_flat (h : Makes .flat p P) : Nests p top fun a _ => P a := .of_makes id h

theorem nests_flatNode (k : NodeKind) {Q : α → Bool → Prop} (h : Makes .flat p fun _ => True)
    (hQ : ∀ a, Q a true) : Nests (node k p) top Q :=
  nests_node k ((nests_of_flat h).mono fun a _ _ => hQ a)

theorem nests_flatWrap (k : NodeKind) {Q : α → Bool → Prop} (h : Makes .flat p fun _ => True)
    (hQ : ∀ a, Q a true) : Nests (wrap k p) true Q :=
  nests_wrap k ((nests_of_flat h).mono fun a _ _ => hQ a)

/-! ## Types -/

theorem nests_typeSuffix : Nests typeSuffix true fun _ t => t = true := by
  refine .bind (nests_view fun v => ?_)
  split
  · -- a question mark
    rw [nests_ite]
    exact ⟨fun _ => rfl, fun _ => .bind (nests_wrap _ rfl)⟩
  · -- an exclamation mark
    rw [nests_ite]
    exact ⟨fun _ => rfl, fun _ => .bind (nests_wrap _ rfl)⟩
  · -- a metatype
    rw [nests_ite]
    exact ⟨fun _ => .bind (nests_wrap _ (.bind rfl)), fun _ => rfl⟩
  · rfl

theorem nests_typeTail (tuple : Bool) : Nests (typeTail tuple) true fun _ t => t = true := by
  refine .bind (nests_view fun v => ?_)
  split
  · apply Nests.bind
    exact nests_flatWrap _ (by simp) fun _ => nests_repeating nests_typeSuffix
  · exact nests_repeating nests_typeSuffix

/-- A type that is found ends behind its node. -/
theorem nests_primaryType : Nests primaryType top fun b t => b = true → t = true := by
  have hsimple : Nests simpleType top fun _ t => t = true :=
    nests_flatNode _ (by simp +decide [joinedGenericArguments]) fun _ => rfl
  have hcollection : Nests collectionType top fun _ t => t = true := by
    apply Nests.bind
    apply nests_node?
    exact nests_of_flat (P := fun k? : Option NodeKind => k?.isSome = true) (by simp)
  have htuple : Nests tupleType top fun _ t => t = true :=
    nests_flatNode _ (by simp [tupleTypeElement]) fun _ => rfl
  refine .bind (nests_kind fun v => ?_)
  split
  iterate 3 exact .bind (hsimple.mono fun _ _ ht _ => ht)
  · exact .bind (hcollection.mono fun _ _ ht _ => ht)
  · exact .bind (htuple.mono fun _ _ ht _ => ht)
  · exact fun h => absurd h Bool.false_ne_true

theorem nests_postfixType : Nests postfixType top fun b t => b = true → t = true := by
  refine .bind (nests_sees fun tuple => .bind (nests_primaryType.mono fun found t ht => ?_))
  rw [nests_ite]
  refine ⟨fun hfound => ?_, fun _ => nofun⟩
  rw [ht hfound]
  exact .bind ((nests_typeTail tuple).mono fun _ _ ht _ => ht)

theorem nests_compositionType : Nests compositionType top fun b t => b = true → t = true := by
  have hjoined : Nests joinedType false fun _ _ => True := by
    refine .bind ((nests_of_flat (P := fun _ => True) (by simp)).mono fun _ t _ => ?_)
    rw [nests_ite]
    exact ⟨fun _ => .bind (nests_postfixType.mono fun _ _ _ => trivial), fun _ => trivial⟩
  refine .bind (nests_postfixType.mono fun found t ht => ?_)
  rw [nests_ite]
  refine ⟨fun hfound => ?_, fun _ => nofun⟩
  rw [ht hfound]
  refine .bind (nests_sees fun joined => ?_)
  cases joined with
  | false => exact fun _ => rfl
  | true => exact .bind (nests_wrap _ ((nests_repeating_any hjoined).mono fun _ _ _ _ => rfl))

/-- The rule for types. -/
theorem nests_typeExpr : Nests typeExpr top fun _ _ => True := by
  refine .bind (nests_view fun v => ?_)
  rw [nests_ite, nests_ite]
  refine ⟨fun _ => ?_, fun _ => ⟨fun _ => ?_, fun _ => ?_⟩⟩
  · apply Nests.bind
    exact nests_flatNode _ (by simp [typeSpecifier]) fun _ => trivial
  · apply Nests.bind
    apply nests_node
    refine Nests.bind (p := bump) (.bind ?_)
    exact nests_compositionType.mono fun _ _ _ => trivial
  · exact nests_compositionType.mono fun _ _ _ => trivial

/-! ## Patterns -/

theorem nests_patternSuffixes (binding : Bool) :
    Nests (patternSuffixes binding) true fun _ t => t = true := by
  refine nests_repeating (.bind (nests_view fun v => ?_))
  rw [nests_ite, nests_ite]
  refine ⟨fun _ => .bind ?_, fun _ => ⟨fun _ => .bind ?_, fun _ => rfl⟩⟩
  · -- a member
    exact nests_flatWrap _ (by simp) fun _ => rfl
  · -- a call
    exact nests_flatWrap _ (by simp) fun _ => rfl

/-- What an expression pattern begins with ends behind its node if there is such a beginning. -/
theorem nests_patternPrimary (binding : Bool) :
    Nests (patternPrimary binding) top fun b t => b = true → t = true := by
  have hsuffixes : Nests (do patternSuffixes binding; pure true) true fun b t =>
      b = true → t = true := .bind ((nests_patternSuffixes binding).mono fun _ _ ht _ => ht)
  refine .bind (nests_view fun v => ?_)
  rw [nests_ite, nests_ite, nests_ite]
  refine ⟨fun _ => .bind ?_,
    fun _ => ⟨fun _ => .bind ?_, fun _ => ⟨fun _ => .bind ?_, fun _ => ?_⟩⟩⟩
  · exact nests_flatNode _ (by simp) fun _ _ => rfl
  · exact nests_flatNode _ (by simp) fun _ _ => rfl
  · exact nests_flatNode _ (by simp) fun _ => hsuffixes
  · split
    · exact .bind (nests_flatNode _ (by simp) fun _ => hsuffixes)
    · exact .bind (nests_flatNode _ (by simp) fun _ => hsuffixes)
    · exact .bind (nests_flatNode _ (by simp) fun _ => hsuffixes)
    · exact .bind (nests_flatNode _ (by simp) fun _ => hsuffixes)
    · exact nofun

theorem nests_expressionPattern (binding : Bool) :
    Nests (expressionPattern binding) top fun b t => b = true → t = true := by
  refine .bind (nests_kind fun v => ?_)
  rw [nests_ite]
  refine ⟨fun _ => nofun, fun _ => .bind (nests_node _ ?_)⟩
  refine .bind ((nests_patternPrimary binding).mono fun structured t ht => ?_)
  refine .bind (nests_kind fun v => ?_)
  rw [nests_ite]
  refine ⟨fun _ _ => rfl, fun _ => ?_⟩
  cases structured with
  | false => exact nests_flatNode _ (by simp) fun _ _ => rfl
  | true =>
    -- the rest is put around what the pattern begins with
    rw [ht rfl]
    exact nests_flatWrap _ (by simp) fun _ _ => rfl

theorem nests_primaryPattern (binding : Bool) :
    Nests (primaryPattern binding) top fun b t => b = true → t = true := by
  refine .bind (nests_view fun v => ?_)
  split
  · exact .bind (nests_flatNode _ (by simp) fun _ _ => rfl)
  · exact .bind (nests_flatNode _ (by simp) fun _ _ => rfl)
  · exact .bind (nests_flatNode _ (by simp) fun _ _ => rfl)
  · exact .bind (nests_flatNode _ (by simp +decide) fun _ _ => rfl)
  · rw [nests_ite]
    refine ⟨fun _ => .bind ?_, fun _ => nests_expressionPattern binding⟩
    exact nests_flatNode _ (by simp) fun _ _ => rfl
  · rw [nests_ite]
    refine ⟨fun _ => .bind ?_, fun _ => nests_expressionPattern binding⟩
    exact nests_flatNode _ (by simp) fun _ _ => rfl
  · exact nests_expressionPattern binding

/-- The rule for patterns. -/
theorem nests_pattern (binding : Bool) : Nests (pattern binding) top fun _ _ => True := by
  refine .bind ((nests_primaryPattern binding).mono fun found t ht => ?_)
  rw [nests_ite]
  refine ⟨fun hfound => ?_, fun _ => trivial⟩
  rw [ht hfound]
  refine .bind (nests_sees fun cast => ?_)
  cases cast with
  | false => exact trivial
  | true => exact .bind (nests_flatWrap _ (by simp) fun _ => trivial)

/-! ## The grammar -/

theorem nests_body (r : Rule) : Nests (body r) top fun _ _ => True := by
  cases r with
  | type => exact nests_typeExpr
  | pattern binding => exact nests_pattern binding
  | _ => exact nests_of_flat (P := fun _ => True) (by simp +decide [body, items, ifStmt])

theorem nests_file : Nests file top fun _ _ => True :=
  nests_of_flat (P := fun _ => True) (by simp)

end Grammar

end SwiftOutline
