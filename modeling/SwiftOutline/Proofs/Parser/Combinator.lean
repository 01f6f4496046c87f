/-
  SwiftOutline.Proofs.Parser.Combinator

  Progress of the parser combinators: optional and required lexemes,
  repetitions, separated lists, bracketed groups and recovery.
-/
import SwiftOutline.Proofs.Parser.Advance

namespace SwiftOutline

namespace View

variable {v : View} {c : TokenKind}

theorem atEnd_of_kind (h : v.kind = c) (hc : (c == .eof) = false) : v.atEnd = false := by
  rw [atEnd, h]
  exact hc

theorem atEnd_of_beq (h : (v.kind == c) = true) (hc : (c == .eof) = false) : v.atEnd = false :=
  atEnd_of_kind (eq_of_beq h) hc

theorem atEnd_of_seesJoined (h : v.seesJoined c = true) (hc : (c == .eof) = false) :
    v.atEnd = false := by
  simp only [seesJoined, Bool.and_eq_true] at h
  exact atEnd_of_beq h.1 hc

theorem atEnd_of_spells {w : String} (h : v.spells w = true) : v.atEnd = false := by
  simp only [spells, spellsAt, Bool.and_eq_true] at h
  exact atEnd_of_beq (c := .ident) h.1 rfl

end View

namespace Parser

variable {k : Nat} {v : View}

/-! ## Single lexemes -/

/-- A lexeme of a known kind is consumed. -/
theorem bump_of_kind {c : TokenKind} {R : Unit → Prop} (h : v.kind = c)
    (hc : (c == .eof) = false) : Advances k v R bump :=
  bump_of_not_atEnd (View.atEnd_of_kind h hc)

theorem bump_of_beq {c : TokenKind} {R : Unit → Prop} (h : (v.kind == c) = true)
    (hc : (c == .eof) = false) : Advances k v R bump :=
  bump_of_not_atEnd (View.atEnd_of_beq h hc)

theorem steady_eat {c : TokenKind} : Steady k (eat c) := by
  refine .sees_bind fun b => ?_
  split
  · exact .bind steady_bump fun _ => .pure
  · exact .pure

/-- What was eaten has been consumed. -/
theorem advances_eat {c : TokenKind} (hc : (c == .eof) = false) :
    Advances k v (fun b => b = true) (eat c) := by
  refine .sees_bind ?_
  split
  · next h => exact (bump_of_beq h hc).then fun _ => .pure
  · exact .pure (by simp)

theorem steady_expect {c : TokenKind} {p : Problem} : Steady k (expect c p) := by
  refine .bind steady_eat fun b => ?_
  split
  · exact .pure
  · exact .bind steady_report fun _ => .pure

theorem steady_require {c : TokenKind} {p : Problem} : Steady k (require c p) :=
  .bind steady_expect fun _ => .pure

/-- What is parsed only where a `c` comes next. -/
theorem Steady.ifSees {c : TokenKind} {p : Parser Unit} (h : Steady k p) :
    Steady k (do if ← sees c then p) := by
  refine .sees_bind fun b => ?_
  split
  · exact h
  · exact .pure

/-! ## Repetitions -/

/-- Repetition advances if each round does and one that goes on has consumed a lexeme. What the
    first round promises for going on and for stopping, the repetition does. -/
theorem Advances.repeating {body : Parser Bool} {P : Bool → Prop} (first : Advances k v P body)
    (hP : P true) (rounds : ∀ w, Advances 4 w (fun b => b = true) body) :
    Advances k v (fun _ => P false) (repeating body) := by
  let stops : Step Unit → Prop := fun step =>
    match step with
    | .again _ => True
    | .stop _ => P false
  refine .loop (P := stops) ?_ (fun _ => trivial) (fun _ w => ?_) (fun _ => .pure)
    (fun _ h => .pure h)
  · refine first.bind (fun _ => .pure) fun b hb => .pure ?_
    cases b with
    | true => exact absurd hP hb
    | false => exact hb
  · refine (rounds w).bind (fun _ => .pure) fun b hb => .pure ?_
    rw [if_neg hb]
    exact id

theorem Steady.repeating {body : Parser Bool} (h : ∀ w, Advances k w (fun b => b = true) body) :
    Steady k (repeating body) :=
  fun v => ((h v).repeating rfl fun w => (h w).later).forget

/-- What a round consumes where `C` holds, the repetition does. -/
theorem Advances.repeating_while {body : Parser Bool} {C : View → Prop}
    (h : ∀ l w, Advances l w (fun b => b = true ∨ C w) body) :
    Advances k v (fun _ => C v) (Parser.repeating body) := by
  have rounds : ∀ w, Advances 4 w (fun b => b = true) body :=
    fun w => (h 4 w).mono (Nat.le_refl _) fun _ => Or.inl
  exact ((h k v).repeating (Or.inl rfl) rounds).mono (Nat.le_refl _) fun _ => Or.inr

/-- Elements with commas between them: it is the comma that is consumed in every round. -/
theorem Steady.separated {element : Parser Bool} (h : Steady k element) :
    Steady k (separated element) := by
  refine .repeating fun w => ?_
  refine (h w).bind (fun b => ?_) fun b _ => ?_
  · split
    · exact steady_eat
    · exact .pure
  · split
    · exact advances_eat rfl
    · exact .pure (by simp)

theorem Steady.separatedUntil {closer : TokenKind} {element : Parser Bool} (h : Steady k element) :
    Steady k (separatedUntil closer element) := by
  refine .repeating fun w => .view_bind ?_
  split
  · exact .pure (by simp)
  · refine (h w).bind (fun b => ?_) fun b _ => ?_
    · split
      · exact steady_eat
      · exact .pure
    · split
      · exact advances_eat rfl
      · exact .pure (by simp)

/-- What each element ends with is there behind the last one, if it stays behind a comma. -/
theorem Ends.separated {element : Parser Bool} {Q : State → Prop} (h : Ends (fun _ => Q) element)
    (hcomma : ∀ t, Q t → Q t.consume) : Ends (fun _ => Q) (separated element) := by
  intro G s
  have comma : ∀ t, Q t → wlp G (eat .comma) (fun _ => Q) t := by
    intro t ht
    show wlp G (if t.view.kind == .comma then _ else _) _ t
    split
    · exact hcomma t ht
    · exact ht
  refine ⟨fun _ _ => True, trivial, fun _ t _ => wlp_andThen (wlp_andThen ?_)⟩
  refine wlp_mono (fun found u hu => ?_) (h G t)
  have hround : wlp G (if found then eat .comma else Pure.pure false) (fun _ => Q) u := by
    split
    · exact comma u hu
    · exact hu
  refine wlp_mono (fun b w hw => ?_) hround
  cases b with
  | true => exact trivial
  | false => exact hw

/-! ## Groups and recovery -/

/-- A lexeme is consumed unless none is left. -/
theorem advances_bumpInside {depth : Nat} :
    Advances k v (fun step => v.atEnd = false ∨ step.goesOn) (bumpInside depth) := by
  refine .view_bind ?_
  split
  · next h => exact .pure (by simp [h, Step.goesOn])
  · next h => exact (bump_of_not_atEnd (by simpa using h)).then fun _ => .pure

theorem advances_bumpBalanced : Advances k v (fun _ => v.atEnd = false) bumpBalanced := by
  refine .loop advances_bumpInside (fun _ => Or.inr trivial)
    (fun _ w => advances_bumpInside.mono (Nat.le_refl _) fun _ => Or.inr)
    (fun _ => .pure) fun _ h => .pure ?_
  exact fun hv => h (Or.inl hv)

theorem steady_bumpBalanced : Steady k bumpBalanced :=
  fun _ => advances_bumpBalanced.forget

theorem bumpBalanced_of_not_atEnd {R : Unit → Prop} (h : v.atEnd = false) :
    Advances k v R bumpBalanced :=
  advances_bumpBalanced.mono (Nat.le_refl _) fun _ _ => h

/-- Recovery consumes a lexeme unless none is left. -/
theorem advances_recover {p : Problem} : Advances k v (fun _ => v.atEnd = false) (recover p) := by
  intro bound s hv hb
  subst hv
  have hgrows := State.grows_complain s p
  have hview : (s.complain p).view = s.view := rfl
  refine wp_bind (wp_report (wp_bind (wp_view ?_)))
  rw [hview]
  split
  · next hend => exact ⟨hgrows, Or.inr ⟨rfl, by simp [hend]⟩⟩
  · next hend =>
    have hbalanced : Advances k s.view (fun _ => True) bumpBalanced :=
      bumpBalanced_of_not_atEnd (by simpa using hend)
    have hreport : ∃ r ∈ (s.complain p).reports, r.remaining = (s.complain p).left :=
      ⟨⟨p, s.left⟩, List.mem_cons_self, rfl⟩
    refine wp_mono (fun _ t ht => ?_) (wp_unexpected hbalanced rfl hb hreport)
    exact ⟨hgrows.trans ht.grows, Or.inl (ht.left_lt trivial)⟩

theorem steady_recover {p : Problem} : Steady k (recover p) :=
  fun _ => advances_recover.forget

/-- A program that is run only if there is something to parse consumes it, if it does so whenever
    there is. -/
theorem recover_of_not_atEnd {p : Problem} {R : Unit → Prop} (h : v.atEnd = false) :
    Advances k v R (recover p) :=
  advances_recover.mono (Nat.le_refl _) fun _ _ => h

end Parser

end SwiftOutline
