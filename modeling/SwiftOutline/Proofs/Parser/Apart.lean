/-
  SwiftOutline.Proofs.Parser.Apart

  Programs that build on. A program that adopts nothing puts what it makes on top
  of what has been built before, and so does the rule for types, which adopts only
  types of its own. So the elements that a declaration begins with stay in front
  when all the rest of it is parsed.
-/
import SwiftOutline.Proofs.Parser.Everywhere
import SwiftOutline.Proofs.Parser.Framed
import SwiftOutline.Proofs.Parser.Members

namespace SwiftOutline

namespace Parser

variable {α β σ : Type} {ok : Rule → Prop} {call : Rule → State → Bool × State} {p : Parser α}

/-! ## Sequences -/

/-- Every program comes to a result. -/
theorem nonempty_result (p : Parser α) : Nonempty α :=
  ⟨(p.run (fun _ s => (true, s)) (.initial [] .none)).1⟩

theorem Fresh.of_andThen {f : α → Parser β} (h : Fresh ok (p.andThen f)) :
    Fresh ok p ∧ ∃ a, Fresh ok (f a) := by
  induction p with
  | done a => exact ⟨trivial, a, h⟩
  | look next ih => exact ⟨fun v => (ih v (h v)).1, (ih default (h default)).2⟩
  | consume next ih => exact ih h
  | complain p next ih => exact ih h
  | group adopt body next _ ih =>
    obtain ⟨r⟩ := nonempty_result body
    exact ⟨⟨h.1, fun b => (ih b (h.2 b)).1⟩, (ih r.1 (h.2 r.1)).2⟩
  | directive body next _ ih =>
    obtain ⟨b⟩ := nonempty_result body
    exact ⟨⟨h.1, fun b => (ih b (h.2 b)).1⟩, (ih b (h.2 b)).2⟩
  | call r next ih => exact ⟨⟨h.1, fun b => (ih b (h.2 b)).1⟩, (ih true (h.2 true)).2⟩
  | loop round init next _ ih =>
    exact ⟨⟨h.1, fun b => (ih b (h.2 b)).1⟩, (ih init (h.2 init)).2⟩

/-- Behind a program without a result of its own. -/
@[simp] theorem fresh_bind_unit {p : Parser Unit} {f : Unit → Parser β} :
    Fresh ok (p >>= f) ↔ Fresh ok p ∧ Fresh ok (f ()) :=
  ⟨fun h => h.of_andThen.imp_right fun ⟨_, h⟩ => h, fun h => h.1.bind fun _ => h.2⟩

@[simp] theorem fresh_bind_view {f : View → Parser β} :
    Fresh ok (view >>= f) ↔ ∀ v, Fresh ok (f v) := Iff.rfl

@[simp] theorem fresh_bind_kind {f : TokenKind → Parser β} :
    Fresh ok (kind >>= f) ↔ ∀ v : View, Fresh ok (f v.kind) := Iff.rfl

@[simp] theorem fresh_bind_sees {k : TokenKind} {f : Bool → Parser β} :
    Fresh ok (sees k >>= f) ↔ ∀ v : View, Fresh ok (f (v.kind == k)) := Iff.rfl

@[simp] theorem fresh_bind_seesJoined {k : TokenKind} {f : Bool → Parser β} :
    Fresh ok (seesJoined k >>= f) ↔ ∀ v : View, Fresh ok (f (v.seesJoined k)) := Iff.rfl

@[simp] theorem fresh_ite {c : Prop} [Decidable c] {p q : Parser α} :
    Fresh ok (if c then p else q) ↔ (c → Fresh ok p) ∧ (¬ c → Fresh ok q) := by
  split <;> simp [*]

attribute [simp] fresh_pure fresh_bump fresh_report fresh_node fresh_node? fresh_recover
  fresh_repeating

@[simp] theorem fresh_follow'_iff {r : Rule} : Fresh ok (follow' r) ↔ ok r :=
  ⟨fun h => h.1, fresh_follow'⟩

@[simp] theorem fresh_eat (k : TokenKind) : Fresh ok (eat k) := by simp [eat]

@[simp] theorem fresh_expect (k : TokenKind) (p : Problem) : Fresh ok (expect k p) :=
  (fresh_eat k).bind fun b => by cases b <;> simp

@[simp] theorem fresh_bind_expect {k : TokenKind} {p : Problem} {f : Bool → Parser β}
    (h : ∀ b, Fresh ok (f b)) : Fresh ok (expect k p >>= f) :=
  (fresh_expect k p).bind h

@[simp] theorem fresh_require (k : TokenKind) (p : Problem) : Fresh ok (require k p) :=
  (fresh_expect k p).bind fun _ => fresh_pure ()

/-! ## What is added -/

/-- `p` leaves all that has been built before it as it is. -/
abbrev BuildsOn (call : Rule → State → Bool × State) (p : Parser α) : Prop :=
  Adds (fun _ => True) call p

/-- A program that adopts nothing builds on, if the rules do that it follows. -/
theorem Fresh.buildsOn (h : Fresh ok p)
    (hcall : ∀ r, ok r → ∀ s : State, s.Adds (fun _ => True) (call r s).2) : BuildsOn call p := by
  intro s
  induction p generalizing s with
  | done a => exact .refl s
  | look next ih => exact ih _ (h s.view) s
  | consume next ih => exact (State.adds_consume (fun _ => trivial) s).trans (ih h s.consume)
  | complain p next ih => exact (State.Adds.of_built_eq rfl).trans (ih h (s.complain p))
  | group adopt body next _ ihn =>
    obtain ⟨rfl, hnext⟩ := h
    refine State.Adds.trans ?_ (ihn _ (hnext _) _)
    cases (body.run call (s.start false)).1.2 with
    | none => exact ⟨_, rfl, fun _ _ => trivial⟩
    | some k => exact ⟨[_], rfl, fun _ _ => trivial⟩
  | directive body next ihb ihn =>
    have hbody := ihb h.1 (s.withDirectives (s.view.directives + 1))
    exact State.Adds.trans hbody (ihn _ (h.2 _) _)
  | call r next ih => exact (hcall r h.1 s).trans (ih _ (h.2 _) _)
  | loop round init next ihr ihn =>
    have hrounds : s.Adds (fun _ => True) (runRounds (fun a s => (round a).run call s)
        (s.view.lexemes.length + 1) init s).2 :=
      rel_runRounds (K := State.adding (fun _ => True) fun _ => trivial)
        (fun a t => ihr a (h.1 a) t) _ init s
    exact hrounds.trans (ihn _ (h.2 _) _)

/-- A program that adopts nothing and follows no rules builds on. -/
theorem buildsOn_of_fresh (h : Fresh (fun _ => False) p) : BuildsOn call p :=
  h.buildsOn fun _ => False.elim

end Parser

/-! ## Types -/

/-- What has been built is one element and `rest` before it. -/
def State.Tops (rest : List Tree) (s : State) : Prop := ∃ x, s.built = x :: rest

/-- What the rule for types does: it adds one element and tells so, or it adds nothing. -/
def State.AddsOne (s : State) (r : Bool × State) : Prop :=
  (r.1 = true ∧ r.2.Tops s.built) ∨ (r.1 = false ∧ r.2.built = s.built)

theorem State.AddsOne.adds {s : State} {r : Bool × State} (h : s.AddsOne r) :
    s.Adds (fun _ => True) r.2 := by
  rcases h with ⟨-, x, hbuilt⟩ | ⟨-, hbuilt⟩
  · exact ⟨[x], hbuilt, fun _ _ => trivial⟩
  · exact .of_built_eq hbuilt

namespace Grammar

open SwiftOutline.Parser SwiftOutline.State

variable {call : Rule → State → Bool × State} {s : State} {rest : List Tree} {ok : Rule → Prop}

theorem built_node (k : NodeKind) {α : Type} (p : Parser α) (s : State) :
    ∃ ts, ((node k p).run call s).2.built = .node k ts :: s.built := by
  rw [run_node]
  exact ⟨_, rfl⟩

theorem tops_node (k : NodeKind) {α : Type} (p : Parser α) (s : State) :
    ((node k p).run call s).2.Tops s.built :=
  (built_node k p s).elim fun _ h => ⟨_, h⟩

/-- What is adopted is an element of its own. -/
theorem tops_wrap {k : NodeKind} {p : Parser Unit} (h : s.Tops rest) :
    ((wrap k p).run call s).2.Tops rest := by
  obtain ⟨x, hbuilt⟩ := h
  rw [run_wrap]
  exact ⟨.node k _, by rw [State.finish, if_pos rfl, hbuilt]; rfl⟩

theorem tops_typeSuffix (h : s.Tops rest) : (typeSuffix.run call s).2.Tops rest := by
  simp only [typeSuffix, run_view_bind]
  split
  · rw [run_ite]
    split
    · exact h
    · rw [run_bind, run_pure]
      exact tops_wrap h
  · rw [run_ite]
    split
    · exact h
    · rw [run_bind, run_pure]
      exact tops_wrap h
  · rw [run_ite]
    split
    · rw [run_bind, run_pure]
      exact tops_wrap h
    · exact h
  · exact h

theorem tops_typeTail {tuple : Bool} (h : s.Tops rest) :
    ((typeTail tuple).run call s).2.Tops rest := by
  have suffixes {t : State} (ht : t.Tops rest) :
      ((repeating typeSuffix).run call t).2.Tops rest := by
    rw [run_repeating]
    exact of_roundsOf (I := State.Tops rest) (J := State.Tops rest)
      (fun t ht => tops_typeSuffix ht) (fun _ => id) t.left ht
  simp only [typeTail, run_bind, run_ite]
  split
  · exact suffixes (tops_wrap h)
  · exact suffixes h

theorem tops_collectionType (s : State) : (collectionType.run call s).2.Tops s.built := by
  rw [collectionType, run_bind, run_pure, run_node?]
  simp only [run_bind, run_ite]
  split <;> exact ⟨_, rfl⟩

theorem addsOne_primaryType (s : State) : s.AddsOne (primaryType.run call s) := by
  simp only [primaryType, run_kind_bind]
  split
  iterate 3
    rw [run_bind, run_pure]
    exact .inl ⟨rfl, tops_node _ _ s⟩
  · rw [run_bind, run_pure]
    exact .inl ⟨rfl, tops_collectionType s⟩
  · rw [run_bind, run_pure]
    exact .inl ⟨rfl, tops_node _ _ s⟩
  · exact .inr ⟨rfl, rfl⟩

theorem addsOne_postfixType (s : State) : s.AddsOne (postfixType.run call s) := by
  have hprimary : s.AddsOne (primaryType.run call s) := addsOne_primaryType s
  rw [postfixType, run_sees_bind, run_bind, run_ite]
  rcases hprimary with ⟨hfound, htop⟩ | ⟨hmissing, hbuilt⟩
  · rw [if_pos hfound, run_bind, run_pure]
    exact .inl ⟨rfl, tops_typeTail htop⟩
  · rw [if_neg (by simp [hmissing]), run_pure]
    exact .inr ⟨rfl, hbuilt⟩

theorem addsOne_compositionType (s : State) : s.AddsOne (compositionType.run call s) := by
  have hpostfix : s.AddsOne (postfixType.run call s) := addsOne_postfixType s
  rw [compositionType, run_bind, run_ite]
  rcases hpostfix with ⟨hfound, htop⟩ | ⟨hmissing, hbuilt⟩
  · rw [if_pos hfound, run_sees_bind, run_ite]
    split
    · rw [run_bind, run_pure]
      exact .inl ⟨rfl, tops_wrap htop⟩
    · exact .inl ⟨rfl, htop⟩
  · rw [if_neg (by simp [hmissing]), run_pure]
    exact .inr ⟨rfl, hbuilt⟩

theorem addsOne_typeExpr (s : State) : s.AddsOne (typeExpr.run call s) := by
  simp only [typeExpr, run_view_bind, run_ite]
  split
  · rw [run_bind, run_pure]
    exact .inl ⟨rfl, tops_node _ _ s⟩
  split
  · rw [run_bind, run_pure]
    exact .inl ⟨rfl, tops_node _ _ s⟩
  · exact addsOne_compositionType s

/-! ## Rules -/

end Grammar

/-- Rules that are followed outside of nodes: what they make is put on top. -/
def Rule.isOuter : Rule → Bool
  | .items _ | .type | .expr _ => true
  | _ => false

@[simp] theorem Rule.isOuter_items (scope : Scope) : (Rule.items scope).isOuter = true := rfl

@[simp] theorem Rule.isOuter_type : Rule.type.isOuter = true := rfl

@[simp] theorem Rule.isOuter_expr (place : Place) : (Rule.expr place).isOuter = true := rfl

namespace Grammar

open SwiftOutline.Parser

theorem adds_runRule {r : Rule} (hr : r.isOuter = true) (depth : Nat) (s : State) :
    s.Adds (fun _ => True) (runRule depth r s).2 := by
  cases depth with
  | zero => exact .refl s
  | succ depth =>
    cases r with
    | type => exact (addsOne_typeExpr s).adds
    | items scope =>
      have hfresh : Fresh (fun _ => False) (body (.items scope)) :=
        (fresh_items scope).bind fun _ => fresh_pure true
      exact hfresh.buildsOn (fun _ => False.elim) s
    | expr place =>
      have hfresh : Fresh (fun _ => False) (expression place) := by simp [expression]
      exact hfresh.buildsOn (fun _ => False.elim) s
    | _ => cases hr

/-! ## Declarations -/

section Fresh

variable {ok : Rule → Prop}

@[simp] theorem fresh_name : Fresh ok name := by simp [name]

@[simp] theorem fresh_genericParameterClause : Fresh ok genericParameterClause := by
  simp [genericParameterClause]

@[simp] theorem fresh_genericParameters : Fresh ok genericParameters := by
  simp [genericParameters]

@[simp] theorem fresh_primaryAssociatedTypes : Fresh ok primaryAssociatedTypes := by
  simp [primaryAssociatedTypes]

@[simp] theorem fresh_inheritance : Fresh ok inheritance := by simp [inheritance]

@[simp] theorem fresh_whereRequirements : Fresh ok whereRequirements := by
  simp [whereRequirements]

@[simp] theorem fresh_memberBlock : Fresh ok memberBlock := by simp [memberBlock]

@[simp] theorem fresh_typeInitializer : Fresh ok typeInitializer := by simp [typeInitializer]

@[simp] theorem fresh_effects : Fresh ok effects := by simp [effects, effectSpecifiers]

@[simp] theorem fresh_optionalCodeBlock : Fresh ok optionalCodeBlock := by
  simp [optionalCodeBlock, codeBlock]

@[simp] theorem fresh_accessorBlock : Fresh ok accessorBlock := by simp [accessorBlock]

@[simp] theorem fresh_operatorName (stops : TokenKind → Bool) : Fresh ok (operatorName stops) := by
  simp [operatorName]

@[simp] theorem fresh_functionName : Fresh ok functionName := by simp [functionName]

@[simp] theorem fresh_functionSignature : Fresh ok functionSignature := by
  simp [functionSignature]

@[simp] theorem fresh_functionRest : Fresh ok functionRest := by simp [functionRest]

@[simp] theorem fresh_operatorRest : Fresh ok operatorRest := by
  simp only [operatorRest, fresh_bind_kind]
  intro v
  split <;> simp [operatorPrecedence]

@[simp] theorem fresh_groupAttribute : Fresh ok groupAttribute := by simp [groupAttribute]

@[simp] theorem fresh_separated {element : Parser Bool} (h : Fresh ok element) :
    Fresh ok (separated element) := by
  refine fresh_repeating (h.bind fun b => ?_)
  split
  · exact fresh_eat _
  · exact fresh_pure _

end Fresh

/-- A declaration has its word for its first element behind its attributes and modifiers, and all
    that follows is put behind it. -/
theorem exists_declarationRest {scope : Scope} {ls : List Lexeme} {k : NodeKind}
    (h : Lookahead.declaration? scope ls = some k) :
    ∃ p, declarationRest k = (do bump; p) ∧ Fresh (fun r => r.isOuter = true) p := by
  simp only [Lookahead.declaration?] at h
  split at h
  case h_17 | h_18 =>
    split at h
    · cases h
      refine ⟨_, rfl, ?_⟩
      simp
    · cases h
  case h_19 => cases h
  all_goals
    cases h
    refine ⟨_, rfl, ?_⟩
    simp

end Grammar

end SwiftOutline
