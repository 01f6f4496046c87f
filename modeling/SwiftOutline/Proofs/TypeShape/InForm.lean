/-
  SwiftOutline.Proofs.TypeShape.InForm

  Spelling all collections of a type in one form. The outcome is determined by two
  things: it is the type it was up to the forms of collections, and all collections
  in it have the one form. So what was spelled before is forgotten, and whether a
  type is made optional before or after does not matter.
-/
import SwiftOutline.Proofs.TypeShape.Tuples

namespace SwiftOutline

namespace TypeShape

variable {r s t u v : TypeShape} {es ps : List (Parameter TypeShape)} {f g : SurfaceForm}
  {e : Effects} {esc o : Bool}

/-! ## Types of one form -/

/-- Every collection that the type is or that occurs somewhere in it is spelled in the form `f`. -/
def InForm (f : SurfaceForm) (t : TypeShape) : Prop :=
  ∀ s, Occurs s t → ∀ g, s.form? = some g → g = f

theorem inForm_simple (n : String) : InForm f (simple n o) := by
  intro s hs g hg
  cases hs
  exact absurd hg (by simp [form?])

theorem inForm_void : InForm f (void o) := by
  intro s hs g hg
  cases hs
  exact absurd hg (by simp [form?])

theorem inForm_empty : InForm f empty := by
  intro s hs g hg
  cases hs
  exact absurd hg (by simp [form?])

theorem inForm_tuple : InForm f (tuple es o) ↔ ∀ p ∈ es, InForm f p.type := by
  constructor
  · exact fun h p hp s hs => h s (.element hp hs)
  · intro h s hs g hg
    cases hs with
    | here => exact absurd hg (by simp [form?])
    | element hp hs => exact h _ hp s hs g hg

theorem inForm_closure :
    InForm f (closure ps t e esc o) ↔ (∀ p ∈ ps, InForm f p.type) ∧ InForm f t := by
  constructor
  · exact fun h => ⟨fun p hp s hs => h s (.input hp hs), fun s hs => h s (.output hs)⟩
  · rintro ⟨hps, ht⟩ s hs g hg
    cases hs with
    | here => exact absurd hg (by simp [form?])
    | input hp hs => exact hps _ hp s hs g hg
    | output hs => exact ht s hs g hg

theorem inForm_array : InForm f (array t g o) ↔ g = f ∧ InForm f t := by
  constructor
  · exact fun h => ⟨h _ .here g rfl, fun s hs => h s (.array hs)⟩
  · rintro ⟨hg, ht⟩ s hs g' hg'
    cases hs with
    | here => exact (Option.some.inj hg').symm.trans hg
    | array hs => exact ht s hs g' hg'

theorem inForm_dictionary :
    InForm f (dictionary s t g o) ↔ g = f ∧ InForm f s ∧ InForm f t := by
  constructor
  · exact fun h => ⟨h _ .here g rfl, fun r hr => h r (.key hr), fun r hr => h r (.value hr)⟩
  · rintro ⟨hg, hs, ht⟩ r hr g' hg'
    cases hr with
    | here => exact (Option.some.inj hg').symm.trans hg
    | key hr => exact hs r hr g' hg'
    | value hr => exact ht r hr g' hg'

theorem inForm_set : InForm f (set t g o) ↔ g = f ∧ InForm f t := by
  constructor
  · exact fun h => ⟨h _ .here g rfl, fun s hs => h s (.set hs)⟩
  · rintro ⟨hg, ht⟩ s hs g' hg'
    cases hs with
    | here => exact (Option.some.inj hg').symm.trans hg
    | set hs => exact ht s hs g' hg'

theorem inForm_result : InForm f (result s t o) ↔ InForm f s ∧ InForm f t := by
  constructor
  · exact fun h => ⟨fun r hr => h r (.success hr), fun r hr => h r (.failure hr)⟩
  · rintro ⟨hs, ht⟩ r hr g hg
    cases hr with
    | here => exact absurd hg (by simp [form?])
    | success hr => exact hs r hr g hg
    | failure hr => exact ht r hr g hg

mutual

theorem inForm_withForm (f : SurfaceForm) (t : TypeShape) : InForm f (t.withForm f) := by
  match t with
  | simple n o => exact inForm_simple n
  | tuple es o => exact inForm_tuple.mpr (inForm_withFormAll f es)
  | closure ps out e esc o =>
    exact inForm_closure.mpr ⟨inForm_withFormAll f ps, inForm_withForm f out⟩
  | array t _ o => exact inForm_array.mpr ⟨rfl, inForm_withForm f t⟩
  | dictionary k v _ o =>
    exact inForm_dictionary.mpr ⟨rfl, inForm_withForm f k, inForm_withForm f v⟩
  | set t _ o => exact inForm_set.mpr ⟨rfl, inForm_withForm f t⟩
  | result s t o => exact inForm_result.mpr ⟨inForm_withForm f s, inForm_withForm f t⟩
  | void o => exact inForm_void
  | empty => exact inForm_empty

theorem inForm_withFormAll (f : SurfaceForm) (ps : List (Parameter TypeShape)) :
    ∀ p ∈ withFormAll f ps, InForm f p.type := by
  match ps with
  | [] => exact fun p hp => absurd hp List.not_mem_nil
  | p :: ps =>
    intro q hq
    rcases List.mem_cons.mp hq with rfl | hq
    · exact inForm_withForm f p.type
    · exact inForm_withFormAll f ps q hq

end

/-! ## Types that differ only in the forms of collections -/

mutual

/-- The types have the same constructors with the same names, effects and flags at all places;
    only how their collections are spelled may differ. -/
inductive SameButForms : TypeShape → TypeShape → Prop where
  | simple (n : String) (o : Bool) : SameButForms (simple n o) (simple n o)
  | tuple {es es' : List (Parameter TypeShape)} (o : Bool) (h : SameButFormsAll es es') :
      SameButForms (tuple es o) (tuple es' o)
  | closure {ps ps' : List (Parameter TypeShape)} {out out' : TypeShape} (e : Effects)
      (esc o : Bool) (h : SameButFormsAll ps ps') (hout : SameButForms out out') :
      SameButForms (closure ps out e esc o) (closure ps' out' e esc o)
  | array {t t' : TypeShape} (f f' : SurfaceForm) (o : Bool) (h : SameButForms t t') :
      SameButForms (array t f o) (array t' f' o)
  | dictionary {k k' v v' : TypeShape} (f f' : SurfaceForm) (o : Bool) (hk : SameButForms k k')
      (hv : SameButForms v v') : SameButForms (dictionary k v f o) (dictionary k' v' f' o)
  | set {t t' : TypeShape} (f f' : SurfaceForm) (o : Bool) (h : SameButForms t t') :
      SameButForms (set t f o) (set t' f' o)
  | result {s s' t t' : TypeShape} (o : Bool) (hs : SameButForms s s') (ht : SameButForms t t') :
      SameButForms (result s t o) (result s' t' o)
  | void (o : Bool) : SameButForms (void o) (void o)
  | empty : SameButForms empty empty

/-- The same for parameters, of which all but the type is the same: label, name, the text of the
    type, dots, `inout`, default value, attributes and whether the label is left out. -/
inductive SameButFormsAll : List (Parameter TypeShape) → List (Parameter TypeShape) → Prop where
  | nil : SameButFormsAll [] []
  | cons {p : Parameter TypeShape} {t : TypeShape} {ps qs : List (Parameter TypeShape)}
      (h : SameButForms p.type t) (hall : SameButFormsAll ps qs) :
      SameButFormsAll (p :: ps) ({ p with type := t } :: qs)

end

mutual

theorem sameButForms_withForm (f : SurfaceForm) (t : TypeShape) :
    SameButForms t (t.withForm f) := by
  match t with
  | simple n o => exact .simple n o
  | tuple es o => exact .tuple o (sameButFormsAll_withFormAll f es)
  | closure ps out e esc o =>
    exact .closure e esc o (sameButFormsAll_withFormAll f ps) (sameButForms_withForm f out)
  | array t g o => exact .array g f o (sameButForms_withForm f t)
  | dictionary k v g o =>
    exact .dictionary g f o (sameButForms_withForm f k) (sameButForms_withForm f v)
  | set t g o => exact .set g f o (sameButForms_withForm f t)
  | result s t o => exact .result o (sameButForms_withForm f s) (sameButForms_withForm f t)
  | void o => exact .void o
  | empty => exact .empty

theorem sameButFormsAll_withFormAll (f : SurfaceForm) (ps : List (Parameter TypeShape)) :
    SameButFormsAll ps (withFormAll f ps) := by
  match ps with
  | [] => exact .nil
  | p :: ps => exact .cons (sameButForms_withForm f p.type) (sameButFormsAll_withFormAll f ps)

end

mutual

/-- Types that differ only in the forms of collections are the same once they are spelled in one
    form. -/
theorem SameButForms.withForm_eq {t u : TypeShape} (h : SameButForms t u) (f : SurfaceForm) :
    t.withForm f = u.withForm f := by
  match h with
  | .simple n o => rfl
  | .tuple o h => simp only [withForm, h.withFormAll_eq f]
  | .closure e esc o h hout => simp only [withForm, h.withFormAll_eq f, hout.withForm_eq f]
  | .array g g' o h => simp only [withForm, h.withForm_eq f]
  | .dictionary g g' o hk hv => simp only [withForm, hk.withForm_eq f, hv.withForm_eq f]
  | .set g g' o h => simp only [withForm, h.withForm_eq f]
  | .result o hs ht => simp only [withForm, hs.withForm_eq f, ht.withForm_eq f]
  | .void o => rfl
  | .empty => rfl

theorem SameButFormsAll.withFormAll_eq {ps qs : List (Parameter TypeShape)}
    (h : SameButFormsAll ps qs) (f : SurfaceForm) : withFormAll f ps = withFormAll f qs := by
  match h with
  | .nil => rfl
  | .cons h hall => simp only [withFormAll, h.withForm_eq f, hall.withFormAll_eq f]

end

mutual

/-- A type whose collections are all spelled in a form stays as it is in this form. -/
theorem withForm_eq_of_inForm {t : TypeShape} (h : InForm f t) : t.withForm f = t := by
  match t with
  | simple n o | void o | empty => rfl
  | tuple es o => rw [withForm, withFormAll_eq_of_inForm (inForm_tuple.mp h)]
  | closure ps out e esc o =>
    obtain ⟨hps, hout⟩ := inForm_closure.mp h
    rw [withForm, withFormAll_eq_of_inForm hps, withForm_eq_of_inForm hout]
  | array t g o =>
    obtain ⟨hg, ht⟩ := inForm_array.mp h
    rw [withForm, hg, withForm_eq_of_inForm ht]
  | dictionary k v g o =>
    obtain ⟨hg, hk, hv⟩ := inForm_dictionary.mp h
    rw [withForm, hg, withForm_eq_of_inForm hk, withForm_eq_of_inForm hv]
  | set t g o =>
    obtain ⟨hg, ht⟩ := inForm_set.mp h
    rw [withForm, hg, withForm_eq_of_inForm ht]
  | result s t o =>
    obtain ⟨hs, ht⟩ := inForm_result.mp h
    rw [withForm, withForm_eq_of_inForm hs, withForm_eq_of_inForm ht]

theorem withFormAll_eq_of_inForm {ps : List (Parameter TypeShape)}
    (h : ∀ p ∈ ps, InForm f p.type) : withFormAll f ps = ps := by
  match ps with
  | [] => rfl
  | p :: ps =>
    rw [withFormAll, withForm_eq_of_inForm (h p List.mem_cons_self),
      withFormAll_eq_of_inForm fun q hq => h q (List.mem_cons_of_mem p hq)]

end

/-- The type spelled in the form `f` is the one that differs from it only in the forms of
    collections and has all of them in this form. -/
theorem eq_withForm_iff : u = t.withForm f ↔ SameButForms t u ∧ InForm f u := by
  constructor
  · rintro rfl
    exact ⟨sameButForms_withForm f t, inForm_withForm f t⟩
  · rintro ⟨hsame, hform⟩
    rw [hsame.withForm_eq f, withForm_eq_of_inForm hform]

/-! ## Optional types -/

/-- The types are the same up to the flag that tells whether the type as a whole is optional. -/
inductive SameButFlag : TypeShape → TypeShape → Prop where
  | simple (n : String) (o o' : Bool) : SameButFlag (simple n o) (simple n o')
  | tuple (es : List (Parameter TypeShape)) (o o' : Bool) :
      SameButFlag (tuple es o) (tuple es o')
  | closure (ps : List (Parameter TypeShape)) (out : TypeShape) (e : Effects) (esc o o' : Bool) :
      SameButFlag (closure ps out e esc o) (closure ps out e esc o')
  | array (t : TypeShape) (f : SurfaceForm) (o o' : Bool) :
      SameButFlag (array t f o) (array t f o')
  | dictionary (k v : TypeShape) (f : SurfaceForm) (o o' : Bool) :
      SameButFlag (dictionary k v f o) (dictionary k v f o')
  | set (t : TypeShape) (f : SurfaceForm) (o o' : Bool) : SameButFlag (set t f o) (set t f o')
  | result (s t : TypeShape) (o o' : Bool) : SameButFlag (result s t o) (result s t o')
  | void (o o' : Bool) : SameButFlag (void o) (void o')
  | empty : SameButFlag empty empty

theorem sameButFlag_optional (t : TypeShape) : SameButFlag t t.optional := by
  cases t <;> constructor

theorem isOptional_optional (h : t ≠ empty) : t.optional.isOptional = true := by
  cases t with
  | empty => exact absurd rfl h
  | _ => rfl

theorem withForm_optional (f : SurfaceForm) (t : TypeShape) :
    t.optional.withForm f = (t.withForm f).optional := by
  cases t <;> rfl

theorem withForm_withOptional (f : SurfaceForm) (t : TypeShape) (b : Bool) :
    (t.withOptional b).withForm f = (t.withForm f).withOptional b := by
  cases b with
  | false => rfl
  | true => exact withForm_optional f t

/-! ## The laws of both changes -/

/-- To spell a type in a form is a projection: what it was spelled in before is forgotten, every
    collection in the outcome has the form, and all else is as it was. It commutes with making the
    type optional, which is done once and for all, makes every type but `empty` optional, and
    changes nothing but the outermost flag. -/
theorem withForm_projection (f g : SurfaceForm) (t : TypeShape) (b : Bool) :
    (t.withForm f).withForm g = t.withForm g ∧
    (∀ s, Occurs s (t.withForm f) → ∀ h, s.form? = some h → h = f) ∧
    SameButForms t (t.withForm f) ∧
    (t.withOptional b).withForm f = (t.withForm f).withOptional b ∧
    (t.withOptional true).withOptional true = t.withOptional true ∧
    ((t.withOptional true).isOptional = true ↔ t ≠ empty) ∧
    SameButFlag t (t.withOptional true) := by
  have hsame : SameButForms t (t.withForm f) := sameButForms_withForm f t
  have hoptional : (t.withOptional true).isOptional = true ↔ t ≠ empty := by
    refine ⟨?_, isOptional_optional⟩
    rintro h rfl
    exact absurd h (by decide)
  exact ⟨(hsame.withForm_eq g).symm, inForm_withForm f t, hsame, withForm_withOptional f t b,
    optional_optional t, hoptional, sameButFlag_optional t⟩

end TypeShape

end SwiftOutline
