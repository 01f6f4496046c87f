/-
  SwiftOutline.Proofs.Parser.Proceeds

  Runs of parsing programs without any bound on loops or on the depth of rules.
  A run exists only if it makes progress: a loop that goes on has consumed a
  lexeme, and so has a rule that is entered again while it is being followed.
  `wp` is sound for these runs, and for the machine that runs programs within
  bounds.
-/
import SwiftOutline.Proofs.Parser.Run

namespace SwiftOutline

/-! ## Runs that make progress -/

/-- Whether two rules are one rule of the grammar, apart from where they stand. -/
def Rule.sameAs : Rule → Rule → Bool
  | .items _, .items _ | .type, .type | .pattern _, .pattern _ | .bindingPattern, .bindingPattern
  | .expr _, .expr _ | .ifStmt, .ifStmt => true
  | _, _ => false

namespace Parser

/-- A rule that is being followed, with the number of lexemes that were left when it was
    entered. -/
structure Entry where
  rule : Rule
  left : Nat

/-- `Proceeds body entered p s a t` says that `p`, run from `s` while the rules `entered` are being
    followed, ends with the result `a` in `t`, when `body` says what the rules stand for. -/
inductive Proceeds (body : Rule → Parser Bool) :
    List Entry → {α : Type} → Parser α → State → α → State → Prop where
  | done {E : List Entry} {α : Type} {a : α} {s : State} : Proceeds body E (.done a) s a s
  | look {E : List Entry} {α : Type} {next : View → Parser α} {s t : State} {a : α}
      (rest : Proceeds body E (next s.view) s a t) : Proceeds body E (.look next) s a t
  | consume {E : List Entry} {α : Type} {next : Parser α} {s t : State} {a : α}
      (rest : Proceeds body E next s.consume a t) : Proceeds body E (.consume next) s a t
  | complain {E : List Entry} {α : Type} {p : Problem} {next : Parser α} {s t : State} {a : α}
      (rest : Proceeds body E next (s.complain p) a t) :
      Proceeds body E (.complain p next) s a t
  | group {E : List Entry} {α β : Type} {adopt : Bool} {inner : Parser (β × Option NodeKind)}
      {next : β → Parser α} {s t u : State} {r : β × Option NodeKind} {a : α}
      (inside : Proceeds body E inner (s.start adopt) r t)
      (rest : Proceeds body E (next r.1) (t.finish s adopt r.2) a u) :
      Proceeds body E (.group adopt inner next) s a u
  | directive {E : List Entry} {α β : Type} {inner : Parser β} {next : β → Parser α}
      {s t u : State} {b : β} {a : α}
      (inside : Proceeds body E inner (s.withDirectives (s.view.directives + 1)) b t)
      (rest : Proceeds body E (next b) (t.withDirectives s.view.directives) a u) :
      Proceeds body E (.directive inner next) s a u
  | call {E : List Entry} {α : Type} {r : Rule} {next : Bool → Parser α} {s t u : State}
      {b : Bool} {a : α}
      (eaten : ∀ e ∈ E, e.rule.sameAs r = true → s.left < e.left)
      (inside : Proceeds body (⟨r, s.left⟩ :: E) (body r) s b t)
      (rest : Proceeds body E (next b) t a u) :
      Proceeds body E (.call r next) s a u
  | stop {E : List Entry} {α σ : Type} {round : σ → Parser (Step σ)} {next : σ → Parser α}
      {s t u : State} {x y : σ} {a : α}
      (inside : Proceeds body E (round x) s (.stop y) t)
      (rest : Proceeds body E (next y) t a u) :
      Proceeds body E (.loop round x next) s a u
  | again {E : List Entry} {α σ : Type} {round : σ → Parser (Step σ)} {next : σ → Parser α}
      {s t u : State} {x y : σ} {a : α}
      (inside : Proceeds body E (round x) s (.again y) t)
      (eaten : t.left < s.left)
      (rest : Proceeds body E (.loop round y next) t a u) :
      Proceeds body E (.loop round x next) s a u

/-- A program has at most one run. -/
theorem Proceeds.unique {body : Rule → Parser Bool} {E E' : List Entry} {α : Type} {p : Parser α}
    {s t t' : State} {a a' : α} (h : Proceeds body E p s a t) (h' : Proceeds body E' p s a' t') :
    a = a' ∧ t = t' := by
  induction h generalizing E' t' with
  | done =>
    cases h'
    exact ⟨rfl, rfl⟩
  | look _ ih =>
    cases h' with
    | look rest => exact ih rest
  | consume _ ih =>
    cases h' with
    | consume rest => exact ih rest
  | complain _ ih =>
    cases h' with
    | complain rest => exact ih rest
  | group _ _ ihi ihr =>
    cases h' with
    | group inside rest =>
      obtain ⟨rfl, rfl⟩ := ihi inside
      exact ihr rest
  | directive _ _ ihi ihr =>
    cases h' with
    | directive inside rest =>
      obtain ⟨rfl, rfl⟩ := ihi inside
      exact ihr rest
  | call _ _ _ ihi ihr =>
    cases h' with
    | call _ inside rest =>
      obtain ⟨rfl, rfl⟩ := ihi inside
      exact ihr rest
  | stop _ _ ihi ihr =>
    cases h' with
    | stop inside rest =>
      obtain ⟨hy, rfl⟩ := ihi inside
      obtain rfl := Step.stop.inj hy
      exact ihr rest
    | again inside _ _ => exact absurd (ihi inside).1 (by simp)
  | again _ _ _ ihi ihr =>
    cases h' with
    | stop inside _ => exact absurd (ihi inside).1 (by simp)
    | again inside _ rest =>
      obtain ⟨hy, rfl⟩ := ihi inside
      obtain rfl := Step.again.inj hy
      exact ihr rest

/-! ## Soundness -/

section Soundness

variable {body : Rule → Parser Bool} {C : Contract} {E : List Entry}

/-- What is known of a rule that is followed from `s` with the outcome `o`: it keeps the contract
    and makes progress. -/
structure Keeps (body : Rule → Parser Bool) (C : Contract) (E : List Entry) (r : Rule) (s : State)
    (o : Bool × State) : Prop where
  ensures : C.ensures r s o.1 o.2
  eaten : ∀ e ∈ E, e.rule.sameAs r = true → s.left < e.left
  proceeds : Proceeds body (⟨r, s.left⟩ :: E) (body r) s o.1 o.2

/-- The rounds of a loop that has a weakest precondition come to a stop, and the machine needs no
    more rounds for it than there are lexemes left, and one. -/
theorem rounds_of_wp {α σ : Type} {outcome : Rule → State → Bool × State}
    {round : σ → Parser (Step σ)} {next : σ → Parser α} {Q : α → State → Prop}
    {I : σ → State → Prop}
    (hround : ∀ x s, I x s → ∃ step t,
      (match step with
        | .again y => t.left < s.left ∧ I y t
        | .stop y => wp C (next y) Q t) ∧
      Proceeds body E (round x) s step t ∧
      ∀ call, (∀ r s, C.admits r s → call r s = outcome r s) → (round x).run call s = (step, t))
    (n : Nat) {x : σ} {s : State} (hI : I x s) (hn : s.left < n) :
    ∃ y t, wp C (next y) Q t ∧
      (∀ a u, Proceeds body E (next y) t a u → Proceeds body E (.loop round x next) s a u) ∧
      ∀ call, (∀ r s, C.admits r s → call r s = outcome r s) →
        runRounds (fun x s => (round x).run call s) n x s = (y, t) := by
  induction n generalizing x s with
  | zero => omega
  | succ n ih =>
    obtain ⟨step, t, hstep, hproc, hrun⟩ := hround x s hI
    cases step with
    | stop y =>
      refine ⟨y, t, hstep, fun a u hu => .stop hproc hu, fun call hcall => ?_⟩
      rw [runRounds, hrun call hcall]
    | again y =>
      obtain ⟨heaten, hI'⟩ := hstep
      obtain ⟨z, u, hz, hrest, hrounds⟩ := ih hI' (by omega)
      refine ⟨z, u, hz, fun a w hw => .again hproc heaten (hrest a w hw), fun call hcall => ?_⟩
      rw [runRounds, hrun call hcall]
      exact hrounds call hcall

/-- A program with a weakest precondition makes progress to an end where the postcondition holds,
    and every machine that follows the rules in the same way comes to that end. -/
theorem exists_proceeds_of_wp {α : Type} {p : Parser α} {Q : α → State → Prop} {s : State}
    {outcome : Rule → State → Bool × State}
    (hrules : ∀ r s, C.admits r s → Keeps body C E r s (outcome r s))
    (h : wp C p Q s) :
    ∃ a t, Q a t ∧ Proceeds body E p s a t ∧
      ∀ call, (∀ r s, C.admits r s → call r s = outcome r s) → p.run call s = (a, t) := by
  induction p generalizing s with
  | done a => exact ⟨a, s, h, .done, fun _ _ => rfl⟩
  | look next ih =>
    obtain ⟨a, t, hQ, hproc, hrun⟩ := ih _ h
    exact ⟨a, t, hQ, .look hproc, hrun⟩
  | consume next ih =>
    obtain ⟨a, t, hQ, hproc, hrun⟩ := ih h
    exact ⟨a, t, hQ, .consume hproc, hrun⟩
  | complain p next ih =>
    obtain ⟨a, t, hQ, hproc, hrun⟩ := ih h
    exact ⟨a, t, hQ, .complain hproc, hrun⟩
  | group adopt inner next ihb ihn =>
    obtain ⟨r, t, hr, hproc, hrun⟩ := ihb h
    obtain ⟨a, u, hQ, hproc', hrun'⟩ := ihn _ hr
    refine ⟨a, u, hQ, .group hproc hproc', fun call hcall => ?_⟩
    rw [run_group, hrun call hcall, hrun' call hcall]
  | directive inner next ihb ihn =>
    obtain ⟨b, t, hb, hproc, hrun⟩ := ihb h
    obtain ⟨a, u, hQ, hproc', hrun'⟩ := ihn _ hb
    refine ⟨a, u, hQ, .directive hproc hproc', fun call hcall => ?_⟩
    rw [run_directive, hrun call hcall, hrun' call hcall]
  | call r next ih =>
    have hr := hrules r s h.1
    obtain ⟨a, u, hQ, hproc, hrun⟩ := ih _ (h.2 _ _ hr.ensures)
    refine ⟨a, u, hQ, .call hr.eaten hr.proceeds hproc, fun call hcall => ?_⟩
    rw [run_call, hcall r s h.1, hrun call hcall]
  | loop round init next ihr ihn =>
    obtain ⟨I, hinit, hround⟩ := h
    obtain ⟨y, t, hy, hproc, hrun⟩ :=
      rounds_of_wp (fun x s hI => ihr _ (hround x s hI)) (s.left + 1) hinit (by omega)
    obtain ⟨a, u, hQ, hproc', hrun'⟩ := ihn _ hy
    refine ⟨a, u, hQ, hproc a u hproc', fun call hcall => ?_⟩
    rw [run_loop, hrun call hcall]
    exact hrun' call hcall

end Soundness

end Parser

end SwiftOutline
