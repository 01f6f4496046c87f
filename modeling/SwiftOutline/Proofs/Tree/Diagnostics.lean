/-
  SwiftOutline.Proofs.Tree.Diagnostics

  Where problems are found. A program reports at the lexeme that comes next and
  nowhere else, and no operation goes back to a lexeme that was consumed, so the
  reports follow the text whatever the grammar looks ahead to in between.
-/
import SwiftOutline.Proofs.Parser.Makes
import SwiftOutline.Proofs.Tree.Recovery

namespace SwiftOutline

/-! ## The order of reports -/

namespace State

variable {s t u : State}

/-- The reports are in the order of the text: the newer one leaves no more lexemes, and none was
    made ahead of the next lexeme. -/
structure Orderly (s : State) : Prop where
  sorted : s.reports.Pairwise fun newer older => newer.remaining ≤ older.remaining
  behind : ∀ r ∈ s.reports, s.left ≤ r.remaining

theorem orderly_initial (lexemes : List Lexeme) (endGap : Gap) :
    (initial lexemes endGap).Orderly :=
  ⟨.nil, fun _ hr => absurd hr List.not_mem_nil⟩

/-- What a program does to the order of reports: it does not go back, and it keeps the order. -/
structure KeepsOrder (s t : State) : Prop where
  left_le : t.left ≤ s.left
  orderly : s.Orderly → t.Orderly

theorem KeepsOrder.refl (s : State) : s.KeepsOrder s := ⟨Nat.le_refl _, id⟩

theorem KeepsOrder.trans (h : s.KeepsOrder t) (h' : t.KeepsOrder u) : s.KeepsOrder u :=
  ⟨Nat.le_trans h'.left_le h.left_le, h'.orderly ∘ h.orderly⟩

/-- The order speaks of reports and lexemes only, not of what has been built. -/
theorem KeepsOrder.of_eq (hlexemes : t.view.lexemes = s.view.lexemes)
    (hreports : t.reports = s.reports) : s.KeepsOrder t := by
  have hleft : t.left = s.left := congrArg List.length hlexemes
  refine ⟨Nat.le_of_eq hleft, fun hs => ⟨?_, ?_⟩⟩
  · rw [hreports]
    exact hs.sorted
  · rw [hreports, hleft]
    exact hs.behind

theorem keepsOrder_consume (s : State) : s.KeepsOrder s.consume := by
  cases hend : s.view.atEnd with
  | true =>
    rw [consume_of_atEnd hend]
    exact .refl s
  | false =>
    have hle := Nat.le_of_lt (left_consume_lt hend)
    obtain ⟨l, ls, hl, -, hconsume⟩ := consume_of_not_atEnd hend
    have hreports : s.consume.reports = s.reports := by rw [hconsume]
    refine ⟨hle, fun hs => ⟨?_, fun r hr => ?_⟩⟩
    · rw [hreports]
      exact hs.sorted
    · rw [hreports] at hr
      exact Nat.le_trans hle (hs.behind r hr)

/-- A new report is made where no earlier one can have been made ahead of it. -/
theorem keepsOrder_complain (s : State) (p : Problem) : s.KeepsOrder (s.complain p) := by
  refine ⟨Nat.le_refl _, fun hs => ⟨List.pairwise_cons.mpr ⟨hs.behind, hs.sorted⟩, fun r hr => ?_⟩⟩
  rcases List.mem_cons.mp hr with rfl | hr
  · exact Nat.le_refl _
  · exact hs.behind r hr

/-- Starting and ending a node or a block of directives leaves the order as it is. -/
theorem KeepsOrder.within (h : s.KeepsOrder t) {s' t' : State}
    (hs : s.view.lexemes = s'.view.lexemes ∧ s.reports = s'.reports)
    (ht : t'.view.lexemes = t.view.lexemes ∧ t'.reports = t.reports) : s'.KeepsOrder t' :=
  .trans (.of_eq hs.1 hs.2) (h.trans (.of_eq ht.1 ht.2))

/-- All operations keep the order, so all programs do. -/
def keepingOrder : Parser.Kept where
  rel := KeepsOrder
  free _ := True
  refl := .refl
  trans := .trans
  consume := keepsOrder_consume
  complain := keepsOrder_complain
  finish h _ := h.within ⟨rfl, rfl⟩ ⟨rfl, rfl⟩
  withDirectives h := h.within ⟨rfl, rfl⟩ ⟨rfl, rfl⟩

end State

namespace Grammar

theorem keepsOrder_runRule (depth : Nat) (r : Rule) (s : State) :
    s.KeepsOrder (runRule depth r s).2 := by
  induction depth generalizing r s with
  | zero => exact .refl s
  | succ depth ih =>
    exact Parser.Makes.by (K := State.keepingOrder) ih (Parser.makes_of_forall fun _ => trivial) s

theorem orderly_parseLexemes (lexemes : List Lexeme) (endGap : Gap) :
    (parseLexemes lexemes endGap).Orderly :=
  (Parser.Makes.by (K := State.keepingOrder) (keepsOrder_runRule _)
    (Parser.makes_of_forall fun _ => trivial) _).orderly (State.orderly_initial lexemes endGap)

end Grammar

/-! ## Places of tokens -/

namespace Token

/-- Every place is that of a token that is no trivia, or the end of the text. -/
theorem placeOf_cases (ts : List Token) (i : Nat) :
    (∃ t, (placeOf ts i, t) ∈ layout 0 ts ∧ t.isTrivia = false) ∨
      placeOf ts i = ⟨totalSize ts, totalSize ts⟩ := by
  rw [placeOf, List.getD_eq_getElem?_getD]
  cases hspan : (significantSpans ts)[i]? with
  | none => exact .inr rfl
  | some span =>
    obtain ⟨⟨_, t⟩, ht, rfl⟩ := List.mem_map.mp (List.mem_of_getElem? hspan)
    obtain ⟨hmem, htrivia⟩ := List.mem_filter.mp ht
    exact .inl ⟨t, hmem, by simpa using htrivia⟩

/-- Tokens begin in the order in which they are laid out, within the text. -/
theorem sorted_layout (start : Nat) (ts : List Token) :
    (layout start ts).Pairwise (fun p q => p.1.start ≤ q.1.start) ∧
      ∀ p ∈ layout start ts, start ≤ p.1.start ∧ p.1.start ≤ start + totalSize ts := by
  induction ts generalizing start with
  | nil => exact ⟨.nil, fun _ hp => absurd hp List.not_mem_nil⟩
  | cons t ts ih =>
    obtain ⟨hsorted, hwithin⟩ := ih (start + t.size)
    refine ⟨List.pairwise_cons.mpr ⟨fun p hp => ?_, hsorted⟩, fun p hp => ?_⟩
    · exact Nat.le_trans (Nat.le_add_right start t.size) (hwithin p hp).1
    · rw [totalSize]
      rcases List.mem_cons.mp hp with rfl | hp
      · exact ⟨Nat.le_refl _, Nat.le_add_right _ _⟩
      · have hp := hwithin p hp
        omega

/-- A token with a higher number begins no earlier; the end of the text is behind all. -/
theorem placeOf_start_mono (ts : List Token) {i j : Nat} (h : i ≤ j) :
    (placeOf ts i).start ≤ (placeOf ts j).start := by
  have hsorted : (significantSpans ts).Pairwise fun a b => a.start ≤ b.start :=
    List.pairwise_map.mpr ((sorted_layout 0 ts).1.filter _)
  have hwithin : ∀ a ∈ significantSpans ts, a.start ≤ totalSize ts := by
    intro a ha
    obtain ⟨p, hp, rfl⟩ := List.mem_map.mp ha
    have := ((sorted_layout 0 ts).2 p (List.mem_filter.mp hp).1).2
    omega
  rw [placeOf, placeOf, List.getD_eq_getElem?_getD, List.getD_eq_getElem?_getD]
  rcases Nat.lt_or_ge j (significantSpans ts).length with hj | hj
  · have hi := Nat.lt_of_le_of_lt h hj
    rw [List.getElem?_eq_getElem hj, List.getElem?_eq_getElem hi]
    rcases Nat.eq_or_lt_of_le h with rfl | hlt
    · exact Nat.le_refl _
    · exact List.pairwise_iff_getElem.mp hsorted i j hi hj hlt
  · rw [List.getElem?_eq_none hj, Option.getD_none]
    rcases Nat.lt_or_ge i (significantSpans ts).length with hi | hi
    · rw [List.getElem?_eq_getElem hi]
      exact hwithin _ (List.getElem_mem hi)
    · rw [List.getElem?_eq_none hi]
      exact Nat.le_refl _

end Token

/-! ## Problems in a text -/

/-- A problem in a text is found at one of its tokens that is no trivia, and has the span of that
    token, or it is found at the very end and has the empty span there. The problems are in the
    order in which they are found, and none begins before the one found earlier. -/
theorem diagnostics_in_text_order (source : String) :
    (∀ d ∈ (parse source).diagnostics,
      (∃ t, (d.span, t) ∈ Token.layout 0 (lex source) ∧ t.isTrivia = false) ∨
        d.span = ⟨source.utf8ByteSize, source.utf8ByteSize⟩) ∧
    (parse source).diagnostics.Pairwise fun earlier later =>
      earlier.span.start ≤ later.span.start := by
  have hsize : Token.totalSize (lex source) = source.utf8ByteSize := by
    rw [Token.totalSize_eq, join_lex]
  rw [diagnostics_parse]
  constructor
  · intro d hd
    obtain ⟨r, -, rfl⟩ := List.mem_map.mp hd
    dsimp only
    rw [← hsize]
    exact Token.placeOf_cases (lex source) (r.tokenIndex (lex source))
  · have hsorted : (finalState (lex source)).reports.Pairwise
        fun newer older => newer.remaining ≤ older.remaining :=
      (Grammar.orderly_parseLexemes _ _).sorted
    rw [List.pairwise_map, List.pairwise_reverse]
    exact hsorted.imp fun hle => Token.placeOf_start_mono _ (Nat.sub_le_sub_left hle _)

end SwiftOutline
