/-
  SwiftOutline.Proofs.Token.Scanner

  The scanners of comments and string literals stop behind a byte below 128.
  Whatever bytes they pass over before, be it half of an escaped character, they
  never end a token within a character.
-/
import SwiftOutline.Proofs.Token.Utf8
import SwiftOutline.Token.Delimited

namespace SwiftOutline

open Utf8

/-! ## Comments -/

theorem Comment.follows_of_rest? {depth : Nat} {bs after : List UInt8}
    (h : rest? depth bs = some after) : Follows (· = byte '/') after bs := by
  induction depth, bs using rest?.induct with
  | case1 depth a b bs hopen ih =>
    unfold rest? at h
    rw [if_pos hopen] at h
    exact ((ih h).cons b).cons a
  | case2 a b bs hopen hclose =>
    unfold rest? at h
    rw [if_neg hopen, if_pos hclose] at h
    obtain rfl := Option.some.inj h
    simp only [Bool.and_eq_true, beq_iff_eq] at hclose
    exact ⟨[a], b, rfl, hclose.2⟩
  | case3 a b bs hopen hclose depth ih =>
    unfold rest? at h
    rw [if_neg hopen, if_pos hclose] at h
    exact ((ih h).cons b).cons a
  | case4 depth a b bs hopen hclose ih =>
    unfold rest? at h
    rw [if_neg hopen, if_neg hclose] at h
    exact (ih h).cons a
  | case5 depth bs hshort =>
    rw [rest?] at h
    · exact absurd h (by simp)
    · exact hshort

theorem Comment.followsAscii_of_rest? {depth : Nat} {bs after : List UInt8}
    (h : rest? depth bs = some after) : FollowsAscii after bs :=
  (follows_of_rest? h).mono fun _ hb => by rw [hb]; decide

/-! ## String literals -/

namespace Quote

theorem width_pos (q : Quote) : 0 < q.width := by
  unfold width
  split <;> decide

/-- What `leads` says of the bytes. -/
theorem replicate_append_drop_of_leads {c : Char} {n : Nat} {bs : List UInt8}
    (h : leads c n bs = true) : List.replicate n (byte c) ++ bs.drop n = bs := by
  induction n generalizing bs with
  | zero => rfl
  | succ n ih =>
    cases bs with
    | nil => simp [leads] at h
    | cons b bs =>
      simp only [leads, Bool.and_eq_true, beq_iff_eq] at h
      rw [List.replicate_succ, List.drop_succ_cons, List.cons_append, ih h.2, h.1]

/-- What delimiters consist of. -/
def IsDelimiter (b : UInt8) : Prop := b = byte '"' ∨ b = byte '#'

/-- A closing delimiter ends with a quote or a pound sign. -/
theorem follows_of_closes {q : Quote} {bs : List UInt8} (h : q.closes bs = true) :
    Follows IsDelimiter (bs.drop (q.width + q.pounds)) bs := by
  simp only [closes, Bool.and_eq_true] at h
  have hquotes := replicate_append_drop_of_leads h.1
  have hpounds := replicate_append_drop_of_leads h.2
  rw [List.drop_drop] at hpounds
  cases hp : q.pounds with
  | zero =>
    obtain ⟨w, hw⟩ : ∃ w, q.width = w + 1 := ⟨q.width - 1, by have := q.width_pos; omega⟩
    refine ⟨List.replicate w (byte '"'), byte '"', ?_, .inl rfl⟩
    rw [hw, List.replicate_succ', List.append_assoc] at hquotes
    rw [Nat.add_zero, hw]
    exact hquotes.symm
  | succ n =>
    refine ⟨List.replicate q.width (byte '"') ++ List.replicate n (byte '#'), byte '#', ?_,
      .inr rfl⟩
    rw [hp, List.replicate_succ', List.append_assoc] at hpounds
    rw [List.append_assoc]
    show bs = _ ++ (_ ++ ([byte '#'] ++ _))
    rw [hpounds, hquotes]

theorem followsAscii_of_closes {q : Quote} {bs : List UInt8} (h : q.closes bs = true) :
    FollowsAscii (bs.drop (q.width + q.pounds)) bs :=
  (follows_of_closes h).mono fun _ hb => by rcases hb with rfl | rfl <;> decide

/-- However deep interpolations and literals nest, scanning ends behind a delimiter. -/
theorem followsAscii_of_scan {skip : Nat} {top : Frame} {below : List Frame} {bs after : List UInt8}
    (h : scan skip top below bs = some after) : FollowsAscii after bs := by
  induction bs generalizing skip top below with
  | nil => simp [scan] at h
  | cons b bs ih =>
    cases skip with
    | succ skip =>
      rw [scan] at h
      exact (ih h).cons b
    | zero =>
      cases top with
      | body q =>
        unfold scan at h
        split at h
        · exact absurd h (by simp)
        · split at h
          · split at h
            · exact (ih h).cons b
            · exact (ih h).cons b
          · split at h
            · next hcloses =>
              cases below with
              | nil =>
                obtain rfl := Option.some.inj h
                have hend := followsAscii_of_closes hcloses
                rw [show q.width + q.pounds = (q.width - 1 + q.pounds) + 1 by
                  have := q.width_pos; omega, List.drop_succ_cons] at hend
                exact hend
              | cons f fs => exact (ih h).cons b
            · exact (ih h).cons b
      | code opened =>
        unfold scan at h
        split at h
        · exact (ih h).cons b
        · split at h
          · next hclose =>
            cases opened with
            | succ opened => exact (ih h).cons b
            | zero =>
              cases below with
              | nil =>
                obtain rfl := Option.some.inj h
                exact ⟨[], b, rfl, by rw [eq_of_beq hclose]; decide⟩
              | cons f fs => exact (ih h).cons b
          · split at h
            · split at h
              · exact (ih h).cons b
              · exact (ih h).cons b
            · exact (ih h).cons b

theorem followsAscii_of_rest? {q : Quote} {bs after : List UInt8} (h : q.rest? bs = some after) :
    FollowsAscii after bs :=
  followsAscii_of_scan h

end Quote

end SwiftOutline
