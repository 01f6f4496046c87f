/-
  SwiftOutline.Proofs.Parser.Framed

  What a program leaves alone. No program looks at what has been built or
  reported before it, so a run is the same with earlier reports, and with earlier
  trees too if the program makes no node of one of them.
-/
import SwiftOutline.Proofs.Parser.Run
import SwiftOutline.Grammar.Item

namespace SwiftOutline

/-! ## States -/

namespace State

variable {s t : State} {trees : List Tree} {reports : List Report}

/-- The state with trees and reports that come from before, the newest of them first. -/
def framed (s : State) (trees : List Tree) (reports : List Report) : State :=
  { s with built := s.built ++ trees, reports := s.reports ++ reports }

@[simp] theorem view_framed (s : State) (trees : List Tree) (reports : List Report) :
    (s.framed trees reports).view = s.view := rfl

theorem withDirectives_framed (s : State) (n : Nat) (trees : List Tree) (reports : List Report) :
    (s.framed trees reports).withDirectives n = (s.withDirectives n).framed trees reports := rfl

theorem consume_framed (s : State) (trees : List Tree) (reports : List Report) :
    (s.framed trees reports).consume = s.consume.framed trees reports := by
  unfold consume
  rw [view_framed]
  split
  · rfl
  · split <;> rfl

/-- A node that adopts nothing is started apart from what was built before. -/
theorem start_framed (s : State) (trees : List Tree) (reports : List Report) :
    (s.framed trees reports).start false = (s.start false).framed [] reports := by
  simp only [start, framed, Bool.false_eq_true, if_false, List.append_nil]

theorem start_framed_nil (s : State) (adopt : Bool) (reports : List Report) :
    (s.framed [] reports).start adopt = (s.start adopt).framed [] reports := by
  simp only [start, framed, List.append_nil]

theorem finish_framed (s t : State) (trees : List Tree) (reports : List Report)
    (k? : Option NodeKind) :
    (t.framed [] reports).finish (s.framed trees reports) false k? =
      (t.finish s false k?).framed trees reports := by
  cases k? <;> simp [finish, framed]

theorem finish_framed_nil (s t : State) (adopt : Bool) (reports : List Report)
    (k? : Option NodeKind) :
    (t.framed [] reports).finish (s.framed [] reports) adopt k? =
      (t.finish s adopt k?).framed [] reports := by
  simp only [finish, framed, List.append_nil]

/-- A node that adopts the newest element is started apart from what is further back. -/
theorem start_framed_of_built (h : s.built ≠ []) (adopt : Bool) :
    (s.framed trees reports).start adopt = (s.start adopt).framed [] reports := by
  cases adopt with
  | false => exact start_framed s trees reports
  | true =>
    obtain ⟨t, ts, hbuilt⟩ := List.exists_cons_of_ne_nil h
    simp [start, framed, hbuilt]

theorem finish_framed_of_built (h : s.built ≠ []) (adopt : Bool) (k? : Option NodeKind) :
    (t.framed [] reports).finish (s.framed trees reports) adopt k? =
      (t.finish s adopt k?).framed trees reports := by
  cases adopt with
  | false => exact finish_framed s t trees reports k?
  | true =>
    obtain ⟨u, us, hbuilt⟩ := List.exists_cons_of_ne_nil h
    cases k? <;> simp [finish, framed, hbuilt]

theorem built_start_ne_nil (h : s.built ≠ []) : (s.start true).built ≠ [] := by
  simpa [start] using h

theorem built_finish_ne_nil {adopt : Bool} (h : s.built ≠ []) (ht : adopt = true → t.built ≠ [])
    (k? : Option NodeKind) : (t.finish s adopt k?).built ≠ [] := by
  cases k? with
  | some k => simp [finish]
  | none =>
    cases adopt with
    | false => simp [finish, h]
    | true => simp [finish, ht rfl]

theorem built_consume_ne_nil (h : s.built ≠ []) : s.consume.built ≠ [] := by
  unfold consume
  split
  · exact h
  · split
    · exact h
    · exact List.cons_ne_nil _ _

end State

/-! ## Programs -/

namespace Parser

variable {α β σ : Type} {call : Rule → State → Bool × State} {ok : Rule → Prop}
  {trees : List Tree} {reports : List Report}

/-- A run does not depend on what comes from before: `f` is done to its result alone. -/
def Ignores (trees : List Tree) (reports : List Report) (f : State → α × State) : Prop :=
  ∀ s, f (s.framed trees reports) = ((f s).1, (f s).2.framed trees reports)

theorem ignores_runRounds {round : σ → State → Step σ × State}
    (h : ∀ a, Ignores trees reports (round a)) (n : Nat) (a : σ) :
    Ignores trees reports (runRounds round n a) := by
  intro s
  induction n generalizing a s with
  | zero => rfl
  | succ n ih =>
    rw [runRounds, runRounds, h a s]
    cases hstep : round a s with
    | mk step t =>
      cases step with
      | again b => exact ih b t
      | stop b => rfl

/-- Earlier reports are ignored by all programs, if the rules ignore them. -/
theorem ignores_run_reports (hcall : ∀ r, Ignores [] reports (call r)) (p : Parser α) :
    Ignores [] reports (p.run call) := by
  intro s
  induction p generalizing s with
  | done a => rfl
  | look next ih => exact ih _ s
  | consume next ih =>
    rw [run_consume, State.consume_framed]
    exact ih s.consume
  | complain p next ih => exact ih (s.complain p)
  | group adopt body next ihb ihn =>
    rw [run_group, State.start_framed_nil, ihb, run_group]
    dsimp only
    rw [State.finish_framed_nil]
    exact ihn _ _
  | directive body next ihb ihn =>
    rw [run_directive, State.view_framed, State.withDirectives_framed, ihb, run_directive]
    dsimp only
    rw [State.withDirectives_framed]
    exact ihn _ _
  | call r next ih =>
    rw [run_call, run_call, hcall r s]
    exact ih _ _
  | loop round init next ihr ihn =>
    rw [run_loop, run_loop, State.left, State.left, State.view_framed,
      ignores_runRounds (fun a t => ihr a t) _ init s]
    exact ihn _ _

/-- The outermost nodes of a program adopt nothing that was built before it, and it follows no
    rules outside of nodes but those that `ok` admits. -/
def Fresh (ok : Rule → Prop) : {α : Type} → Parser α → Prop
  | _, .done _ => True
  | _, .look next => ∀ v, Fresh ok (next v)
  | _, .consume next => Fresh ok next
  | _, .complain _ next => Fresh ok next
  | _, .group adopt _ next => adopt = false ∧ ∀ b, Fresh ok (next b)
  | _, .directive body next => Fresh ok body ∧ ∀ b, Fresh ok (next b)
  | _, .call r next => ok r ∧ ∀ b, Fresh ok (next b)
  | _, .loop round _ next => (∀ a, Fresh ok (round a)) ∧ ∀ b, Fresh ok (next b)

/-- Such a program ignores earlier trees. -/
theorem Fresh.ignores (hreports : ∀ r, Ignores [] reports (call r))
    (hcall : ∀ r, ok r → Ignores trees reports (call r)) {p : Parser α} (h : Fresh ok p) :
    Ignores trees reports (p.run call) := by
  intro s
  induction p generalizing s with
  | done a => rfl
  | look next ih => exact ih _ (h s.view) s
  | consume next ih =>
    rw [run_consume, State.consume_framed]
    exact ih h s.consume
  | complain p next ih => exact ih h (s.complain p)
  | group adopt body next _ ihn =>
    obtain ⟨rfl, hnext⟩ := h
    rw [run_group, State.start_framed, ignores_run_reports hreports body, run_group]
    dsimp only
    rw [State.finish_framed]
    exact ihn _ (hnext _) _
  | directive body next ihb ihn =>
    rw [run_directive, State.view_framed, State.withDirectives_framed, ihb h.1, run_directive]
    dsimp only
    rw [State.withDirectives_framed]
    exact ihn _ (h.2 _) _
  | call r next ih =>
    rw [run_call, run_call, hcall r h.1 s]
    exact ih _ (h.2 _) _
  | loop round init next ihr ihn =>
    rw [run_loop, run_loop, State.left, State.left, State.view_framed,
      ignores_runRounds (fun a t => ihr a (h.1 a) t) _ init s]
    exact ihn _ (h.2 _) _

/-- A run that begins behind something built leaves what is further back alone, and something
    built behind it. -/
def Grounded (trees : List Tree) (reports : List Report) (f : State → α × State) : Prop :=
  ∀ s, s.built ≠ [] →
    f (s.framed trees reports) = ((f s).1, (f s).2.framed trees reports) ∧ (f s).2.built ≠ []

theorem grounded_runRounds {round : σ → State → Step σ × State}
    (h : ∀ a, Grounded trees reports (round a)) (n : Nat) (a : σ) :
    Grounded trees reports (runRounds round n a) := by
  intro s hs
  induction n generalizing a s with
  | zero => exact ⟨rfl, hs⟩
  | succ n ih =>
    obtain ⟨hround, hbuilt⟩ := h a s hs
    rw [runRounds, runRounds, hround]
    cases hstep : round a s with
    | mk step t =>
      rw [hstep] at hbuilt
      cases step with
      | again b => exact ih b t hbuilt
      | stop b => exact ⟨rfl, hbuilt⟩

/-- Every program is grounded, whatever it adopts: behind something built, it can adopt no more
    than that. -/
theorem grounded_run (hreports : ∀ r, Ignores [] reports (call r))
    (hcall : ∀ r, Grounded trees reports (call r)) (p : Parser α) :
    Grounded trees reports (p.run call) := by
  intro s hs
  induction p generalizing s with
  | done a => exact ⟨rfl, hs⟩
  | look next ih => exact ih _ s hs
  | consume next ih =>
    rw [run_consume, run_consume, State.consume_framed]
    exact ih s.consume (State.built_consume_ne_nil hs)
  | complain p next ih => exact ih (s.complain p) hs
  | group adopt body next ihb ihn =>
    rw [run_group, State.start_framed_of_built hs, ignores_run_reports hreports body, run_group]
    dsimp only
    rw [State.finish_framed_of_built hs]
    refine ihn _ _ (State.built_finish_ne_nil hs ?_ _)
    rintro rfl
    exact (ihb _ (State.built_start_ne_nil hs)).2
  | directive body next ihb ihn =>
    obtain ⟨hbody, hbuilt⟩ := ihb (s.withDirectives (s.view.directives + 1)) hs
    rw [run_directive, State.view_framed, State.withDirectives_framed, hbody, run_directive]
    dsimp only
    rw [State.withDirectives_framed]
    exact ihn _ _ hbuilt
  | call r next ih =>
    obtain ⟨hrule, hbuilt⟩ := hcall r s hs
    rw [run_call, run_call, hrule]
    exact ih _ _ hbuilt
  | loop round init next ihr ihn =>
    have hround : ∀ a, Grounded trees reports fun s => (round a).run call s := fun a t => ihr a t
    obtain ⟨hrounds, hbuilt⟩ := grounded_runRounds hround (s.view.lexemes.length + 1) init s hs
    rw [run_loop, run_loop, State.left, State.left, State.view_framed, hrounds]
    exact ihn _ _ hbuilt

/-! ### Fresh programs -/

theorem Fresh.andThen {p : Parser α} {f : α → Parser β} (hp : Fresh ok p)
    (hf : ∀ a, Fresh ok (f a)) : Fresh ok (p.andThen f) := by
  induction p with
  | done a => exact hf a
  | look next ih => exact fun v => ih v (hp v) hf
  | consume next ih => exact ih hp hf
  | complain p next ih => exact ih hp hf
  | group adopt body next _ ih => exact ⟨hp.1, fun b => ih b (hp.2 b) hf⟩
  | directive body next _ ih => exact ⟨hp.1, fun b => ih b (hp.2 b) hf⟩
  | call r next ih => exact ⟨hp.1, fun b => ih b (hp.2 b) hf⟩
  | loop round init next _ ih => exact ⟨hp.1, fun b => ih b (hp.2 b) hf⟩

theorem Fresh.bind {p : Parser α} {f : α → Parser β} (hp : Fresh ok p)
    (hf : ∀ a, Fresh ok (f a)) : Fresh ok (p >>= f) :=
  hp.andThen hf

theorem fresh_pure (a : α) : Fresh ok (pure a) := trivial

theorem fresh_view : Fresh ok view := fun _ => trivial

theorem fresh_kind : Fresh ok kind := fun _ => trivial

theorem fresh_bump : Fresh ok bump := trivial

theorem fresh_report (p : Problem) : Fresh ok (report p) := trivial

theorem fresh_follow' {r : Rule} (hr : ok r) : Fresh ok (follow' r) := ⟨hr, fun _ => trivial⟩

/-- Whatever a node is made of, it is made apart. -/
theorem fresh_node (k : NodeKind) (p : Parser α) : Fresh ok (node k p) := ⟨rfl, fun _ => trivial⟩

theorem fresh_node? (p : Parser (Option NodeKind)) : Fresh ok (node? p) :=
  ⟨rfl, fun _ => trivial⟩

theorem fresh_repeating {body : Parser Bool} (h : Fresh ok body) : Fresh ok (repeating body) :=
  ⟨fun _ => h.andThen fun _ => trivial, fun _ => trivial⟩

theorem fresh_recover (p : Problem) : Fresh ok (recover p) := by
  refine (fresh_report p).bind fun _ => fresh_view.bind fun v => ?_
  split
  · exact fresh_pure ()
  · exact fresh_node _ _

end Parser

/-! ## The grammar -/

namespace Grammar

open SwiftOutline.Parser

variable {ok : Rule → Prop} {trees : List Tree} {reports : List Report}

theorem ignores_runRule_reports (depth : Nat) (r : Rule) :
    Ignores [] reports (runRule depth r) := by
  induction depth generalizing r with
  | zero => exact fun _ => rfl
  | succ depth ih => exact ignores_run_reports ih (body r)

theorem grounded_runRule (depth : Nat) (r : Rule) : Grounded trees reports (runRule depth r) := by
  induction depth generalizing r with
  | zero => exact fun _ hs => ⟨rfl, hs⟩
  | succ depth ih => exact grounded_run (ignores_runRule_reports depth) ih (body r)

theorem fresh_statement : Fresh ok statement := by
  refine fresh_kind.bind fun k => ?_
  dsimp only
  split
  · exact (fresh_report _).bind fun _ => fresh_node _ _
  split
  · exact fresh_recover _
  · refine (fresh_node? _).bind fun found => ?_
    split
    · exact fresh_pure ()
    · exact fresh_recover _

theorem fresh_declarationOrStatement (scope : Scope) : Fresh ok (declarationOrStatement scope) := by
  refine fresh_view.bind fun v => ?_
  split
  · exact fresh_node _ _
  split
  · exact fresh_statement
  split
  · exact fresh_recover _
  · exact (fresh_report _).bind fun _ => fresh_node _ _

/-- Every item is a node by itself, or no more than a token. -/
theorem fresh_item (scope : Scope) : Fresh ok (item scope) := by
  refine fresh_kind.bind fun k => ?_
  split
  · exact fresh_bump
  · exact fresh_node _ _
  · exact fresh_recover _
  · exact fresh_recover _
  · exact fresh_recover _
  split
  · exact fresh_declarationOrStatement scope
  split
  · exact fresh_node _ _
  · exact fresh_recover _

theorem fresh_items (scope : Scope) : Fresh ok (items scope) := by
  refine fresh_repeating (fresh_view.bind fun before => ?_)
  split
  · exact fresh_pure false
  refine (fresh_item scope).bind fun _ => fresh_view.bind fun after => ?_
  split
  · exact (fresh_recover _).bind fun _ => fresh_pure true
  · exact fresh_pure true

theorem ignores_runRule_items (depth : Nat) (scope : Scope) :
    Ignores trees reports (runRule depth (.items scope)) := by
  cases depth with
  | zero => exact fun _ => rfl
  | succ depth =>
    have hfresh : Fresh (fun _ => False) (body (.items scope)) :=
      (fresh_items scope).bind fun _ => fresh_pure true
    exact hfresh.ignores (ignores_runRule_reports depth) fun _ => False.elim

/-- A file is parsed as if nothing came before it. -/
theorem ignores_run_file (depth : Nat) : Ignores trees reports (file.run (runRule depth)) := by
  have hfresh : Fresh (fun r => r = .items .topLevel) file := by
    refine Fresh.bind (fresh_follow' (by rfl)) fun _ =>
      fresh_repeating (fresh_view.bind fun v => ?_)
    split
    · exact fresh_pure false
    · exact (fresh_recover _).bind fun _ => Fresh.bind (fresh_follow' (by rfl)) fun _ =>
        fresh_pure true
  refine hfresh.ignores (ignores_runRule_reports depth) fun r hr => ?_
  subst hr
  exact ignores_runRule_items depth .topLevel

end Grammar

end SwiftOutline
