/-
  SwiftOutline.Proofs.Parser.Run

  Weakest preconditions of parsing programs, for total runs, and what the machine
  does with each way of building a program. A loop has to consume a lexeme in
  every round but the last, and a rule may be followed only where its contract
  admits it; what a rule does is known through its contract alone, so a program is
  reasoned about without looking into the rules. Sequencing runs one program
  behind the other, and a repetition is followed round by round, without a look
  at the bound that the machine puts on it.
-/
import SwiftOutline.Grammar.Parser

namespace SwiftOutline

/-- Number of lexemes that are left. -/
def State.left (s : State) : Nat := s.view.lexemes.length

/-- What is known of the rules of a grammar. -/
structure Contract where
  /-- Where a rule may be followed. -/
  admits : Rule → State → Prop
  /-- What a rule guarantees about its outcome, given where it was followed. -/
  ensures : Rule → State → Bool → State → Prop

namespace State

/-! ## Steps of a state -/

@[simp] theorem view_withDirectives (s : State) (n : Nat) :
    (s.withDirectives n).view = { s.view with directives := n } := rfl

theorem kind_of_lexemes {s : State} {l : Lexeme} {ls : List Lexeme}
    (h : s.view.lexemes = l :: ls) : s.view.kind = l.kind := by
  rw [View.kind, View.kindAt, h]
  rfl

/-- Behind the end there is nothing to consume. -/
theorem consume_of_atEnd {s : State} (h : s.view.atEnd = true) : s.consume = s := by
  unfold consume
  split
  · rfl
  · next l ls hl =>
    have hk : (l.kind == .eof) = true := by
      simpa [View.atEnd, View.kind, View.kindAt, hl] using h
    rw [if_pos hk]

/-- Before the end, consuming takes away the first lexeme and adds its token. -/
theorem consume_of_not_atEnd {s : State} (h : s.view.atEnd = false) :
    ∃ l ls, s.view.lexemes = l :: ls ∧ l.kind ≠ .eof ∧
      s.consume = { s with
        view := { s.view with lexemes := ls }
        built := .leaf l.token :: s.built } := by
  unfold consume
  split
  · next hl => simp [View.atEnd, View.kind, View.kindAt, hl] at h
  · next l ls hl =>
    have hk : (l.kind == .eof) = false := by
      simpa [View.atEnd, View.kind, View.kindAt, hl] using h
    refine ⟨l, ls, hl, by simpa using hk, ?_⟩
    rw [if_neg (by simp [hk])]

theorem kind_consume {s : State} (h : s.view.atEnd = false) :
    s.consume.view.kind = s.view.kindAt 1 := by
  obtain ⟨l, ls, hl, -, hc⟩ := consume_of_not_atEnd h
  rw [hc, View.kindAt, hl]
  rfl

theorem left_consume_lt {s : State} (h : s.view.atEnd = false) : s.consume.left < s.left := by
  obtain ⟨l, ls, hl, -, hc⟩ := consume_of_not_atEnd h
  rw [hc]
  simp [left, hl]

end State

namespace Parser

variable {α β σ : Type} {C : Contract}

/-! ## Weakest preconditions -/

/-- `wp C p Q s` says that `p`, run from `s`, comes to an end with `Q`, provided that the rules
    keep the contract `C`. -/
def wp (C : Contract) : {α : Type} → Parser α → (α → State → Prop) → State → Prop
  | _, .done a, Q, s => Q a s
  | _, .look next, Q, s => wp C (next s.view) Q s
  | _, .consume next, Q, s => wp C next Q s.consume
  | _, .complain p next, Q, s => wp C next Q (s.complain p)
  | _, .group adopt body next, Q, s =>
    wp C body (fun r t => wp C (next r.1) Q (t.finish s adopt r.2)) (s.start adopt)
  | _, .directive body next, Q, s =>
    wp C body (fun b t => wp C (next b) Q (t.withDirectives s.view.directives))
      (s.withDirectives (s.view.directives + 1))
  | _, .call r next, Q, s =>
    C.admits r s ∧ ∀ b t, C.ensures r s b t → wp C (next b) Q t
  | _, .loop round init next, Q, s =>
    -- the invariant of the loop; the measure is fixed, since only lexemes can run out
    ∃ I : _ → State → Prop, I init s ∧ ∀ a t, I a t →
      wp C (round a) (fun step u =>
        match step with
        | .again b => u.left < t.left ∧ I b u
        | .stop b => wp C (next b) Q u) t

/-- A weaker postcondition holds too. -/
theorem wp_mono {p : Parser α} {Q Q' : α → State → Prop} {s : State}
    (hQ : ∀ a t, Q a t → Q' a t) (h : wp C p Q s) : wp C p Q' s := by
  induction p generalizing s with
  | done a => exact hQ _ _ h
  | look next ih => exact ih _ hQ h
  | consume next ih => exact ih hQ h
  | complain p next ih => exact ih hQ h
  | group adopt body next ihb ihn => exact ihb (fun r t ht => ihn _ hQ ht) h
  | directive body next ihb ihn => exact ihb (fun b t ht => ihn _ hQ ht) h
  | call r next ih => exact ⟨h.1, fun b t ht => ih _ hQ (h.2 b t ht)⟩
  | loop round init next ihr ihn =>
    obtain ⟨I, hinit, hround⟩ := h
    refine ⟨I, hinit, fun a t ht => ihr _ (fun step u hu => ?_) (hround a t ht)⟩
    cases step with
    | again b => exact hu
    | stop b => exact ihn _ hQ hu

/-- Sequencing, for the programs themselves. -/
theorem wp_andThen {p : Parser α} {f : α → Parser β} {Q : β → State → Prop} {s : State}
    (h : wp C p (fun a t => wp C (f a) Q t) s) : wp C (p.andThen f) Q s := by
  induction p generalizing s with
  | done a => exact h
  | look next ih => exact ih _ h
  | consume next ih => exact ih h
  | complain p next ih => exact ih h
  | group adopt body next _ ihn =>
    rw [andThen, wp]
    exact wp_mono (fun r t ht => ihn _ ht) h
  | directive body next _ ihn =>
    rw [andThen, wp]
    exact wp_mono (fun b t ht => ihn _ ht) h
  | call r next ih => exact ⟨h.1, fun b t ht => ih _ (h.2 b t ht)⟩
  | loop round init next _ ihn =>
    obtain ⟨I, hinit, hround⟩ := h
    refine ⟨I, hinit, fun a t ht => wp_mono (fun step u hu => ?_) (hround a t ht)⟩
    cases step with
    | again b => exact hu
    | stop b => exact ihn _ hu

/-- Sequencing, as `do` writes it. -/
theorem wp_bind {p : Parser α} {f : α → Parser β} {Q : β → State → Prop} {s : State}
    (h : wp C p (fun a t => wp C (f a) Q t) s) : wp C (p >>= f) Q s :=
  wp_andThen h

/-- Looking changes nothing. -/
theorem wp_view {Q : View → State → Prop} {s : State} (h : Q s.view s) : wp C view Q s := h

theorem wp_report {problem : Problem} {Q : Unit → State → Prop} {s : State}
    (h : Q () (s.complain problem)) : wp C (report problem) Q s := h

end Parser

namespace Parser

variable {α β σ : Type} {call : Rule → State → Bool × State} {s t u : State}

/-! ## Programs -/

theorem run_consume (next : Parser α) (s : State) :
    (Parser.consume next).run call s = next.run call s.consume := rfl

theorem run_group (adopt : Bool) (body : Parser (β × Option NodeKind)) (next : β → Parser α)
    (s : State) : (Parser.group adopt body next).run call s =
      (next (body.run call (s.start adopt)).1.1).run call
        ((body.run call (s.start adopt)).2.finish s adopt (body.run call (s.start adopt)).1.2) :=
  rfl

theorem run_directive (body : Parser β) (next : β → Parser α) (s : State) :
    (Parser.directive body next).run call s =
      (next (body.run call (s.withDirectives (s.view.directives + 1))).1).run call
        ((body.run call (s.withDirectives (s.view.directives + 1))).2.withDirectives
          s.view.directives) := rfl

theorem run_call (r : Rule) (next : Bool → Parser α) (s : State) :
    (Parser.call r next).run call s = (next (call r s).1).run call (call r s).2 := rfl

theorem run_loop (body : σ → Parser (Step σ)) (init : σ) (next : σ → Parser α) (s : State) :
    (Parser.loop body init next).run call s =
      (next (runRounds (fun a s => (body a).run call s) (s.left + 1) init s).1).run call
        (runRounds (fun a s => (body a).run call s) (s.left + 1) init s).2 := rfl

/-! ## Operations -/

theorem run_andThen (p : Parser α) (f : α → Parser β) (s : State) :
    (p.andThen f).run call s = (f (p.run call s).1).run call (p.run call s).2 := by
  induction p generalizing s with
  | done a => rfl
  | look next ih => exact ih _ f s
  | consume next ih => exact ih f _
  | complain p next ih => exact ih f _
  | group adopt body next _ ih => exact ih _ f _
  | directive body next _ ih => exact ih _ f _
  | call r next ih => exact ih _ f _
  | loop round init next _ ih => exact ih _ f _

theorem run_bind (p : Parser α) (f : α → Parser β) (s : State) :
    (p >>= f).run call s = (f (p.run call s).1).run call (p.run call s).2 :=
  run_andThen p f s

/-- Sequencing behind a program whose outcome is known. -/
theorem run_bind_of_run {p : Parser α} {a : α} (h : p.run call s = (a, t)) (f : α → Parser β) :
    (p >>= f).run call s = (f a).run call t := by
  rw [run_bind, h]

@[simp] theorem run_view_bind (f : View → Parser α) (s : State) :
    (view >>= f).run call s = (f s.view).run call s := rfl

@[simp] theorem run_kind_bind (f : TokenKind → Parser α) (s : State) :
    (kind >>= f).run call s = (f s.view.kind).run call s := rfl

@[simp] theorem run_sees_bind (k : TokenKind) (f : Bool → Parser α) (s : State) :
    (sees k >>= f).run call s = (f (s.view.kind == k)).run call s := rfl

@[simp] theorem run_seesJoined_bind (k : TokenKind) (f : Bool → Parser α) (s : State) :
    (seesJoined k >>= f).run call s = (f (s.view.seesJoined k)).run call s := rfl

@[simp] theorem run_pure (a : α) (s : State) : (pure a : Parser α).run call s = (a, s) := rfl

@[simp] theorem run_ite (c : Prop) [Decidable c] (p q : Parser α) (s : State) :
    (if c then p else q).run call s = if c then p.run call s else q.run call s := by
  split <;> rfl

@[simp] theorem run_bump (s : State) : bump.run call s = ((), s.consume) := rfl

@[simp] theorem run_report (p : Problem) (s : State) :
    (report p).run call s = ((), s.complain p) := rfl

@[simp] theorem run_follow (r : Rule) (s : State) : (follow r).run call s = call r s := rfl

@[simp] theorem run_follow' (r : Rule) (s : State) :
    (follow' r).run call s = ((), (call r s).2) := rfl

@[simp] theorem run_node (k : NodeKind) (p : Parser α) (s : State) :
    (node k p).run call s =
      ((p.run call (s.start false)).1, (p.run call (s.start false)).2.finish s false (some k)) := by
  rw [node, run_group, run_andThen]
  rfl

@[simp] theorem run_wrap (k : NodeKind) (p : Parser α) (s : State) :
    (wrap k p).run call s =
      ((p.run call (s.start true)).1, (p.run call (s.start true)).2.finish s true (some k)) := by
  rw [wrap, run_group, run_andThen]
  rfl

@[simp] theorem run_node? (p : Parser (Option NodeKind)) (s : State) :
    (node? p).run call s =
      ((p.run call (s.start false)).1.isSome,
        (p.run call (s.start false)).2.finish s false (p.run call (s.start false)).1) := by
  rw [node?, run_group, run_andThen]
  rfl

theorem run_inDirective (p : Parser α) (s : State) :
    (inDirective p).run call s =
      ((p.run call (s.withDirectives (s.view.directives + 1))).1,
        (p.run call (s.withDirectives (s.view.directives + 1))).2.withDirectives
          s.view.directives) := rfl

/-! ## Repetitions -/

/-- The state behind at most `n` rounds of a repetition. -/
def roundsOf (round : State → Bool × State) : (n : Nat) → State → State
  | 0, s => s
  | n + 1, s => if (round s).1 then roundsOf round n (round s).2 else (round s).2

theorem runRounds_eq_roundsOf (body : Parser Bool) (n : Nat) (s : State) :
    (runRounds (fun _ s => (body.andThen fun b => .done (if b then Step.again () else .stop ())).run
      call s) n () s).2 = roundsOf (body.run call) n s := by
  induction n generalizing s with
  | zero => rfl
  | succ n ih =>
    rw [runRounds, run_andThen, roundsOf]
    cases (body.run call s).1 with
    | true => exact ih _
    | false => rfl

@[simp] theorem run_repeating (body : Parser Bool) (s : State) :
    (repeating body).run call s = ((), roundsOf (body.run call) (s.left + 1) s) :=
  Prod.ext rfl (runRounds_eq_roundsOf body _ s)

/-- What a round brings about, a repetition does, if the next round may begin there. -/
theorem of_roundsOf {round : State → Bool × State} {I J : State → Prop}
    (hround : ∀ s, I s → J (round s).2) (hnext : ∀ s, J s → I s) (n : Nat) {s : State}
    (hs : I s) : J (roundsOf round (n + 1) s) := by
  induction n generalizing s with
  | zero =>
    rw [roundsOf]
    split
    · exact hround s hs
    · exact hround s hs
  | succ n ih =>
    rw [roundsOf]
    split
    · exact ih (hnext _ (hround s hs))
    · exact hround s hs

end Parser

end SwiftOutline
