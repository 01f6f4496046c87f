/-
  SwiftOutline.Proofs.Progress.Lookahead

  Looking ahead comes to an end by itself. What a step skips is at least one
  lexeme, so a loop of steps that has as many rounds as there are lexemes is
  never cut short: any two numbers of rounds that are large enough give the same
  result.
-/
import SwiftOutline.Grammar.Lookahead

namespace SwiftOutline

namespace Lookahead

variable {ls : List Lexeme} {depth : Nat}

/-! ## What is skipped -/

theorem headKind_of_beq {k : TokenKind} (h : (headKind ls == k) = true)
    (hk : (k == .eof) = false) : headKind ls ≠ .eof := by
  rw [eq_of_beq h]
  simpa using hk

/-- Where the first lexeme is no end, there is one to drop. -/
theorem length_drop_lt {n : Nat} (h : headKind ls ≠ .eof) (hn : 0 < n) :
    (ls.drop n).length < ls.length := by
  cases ls with
  | nil => exact absurd rfl h
  | cons l ls =>
    rw [List.length_drop, List.length_cons]
    omega

theorem length_skipBalanced_le (depth : Nat) (ls : List Lexeme) :
    (skipBalanced depth ls).length ≤ ls.length := by
  induction ls generalizing depth with
  | nil => exact Nat.le_refl _
  | cons l ls ih =>
    rw [skipBalanced, List.length_cons]
    split
    · exact Nat.le_refl _
    · dsimp only
      split
      · omega
      · exact Nat.le_succ_of_le (ih _)

theorem length_skipBalanced_lt (h : headKind ls ≠ .eof) :
    (skipBalanced depth ls).length < ls.length := by
  cases ls with
  | nil => exact absurd rfl h
  | cons l ls =>
    rw [skipBalanced, if_neg (by simpa [headKind] using h), List.length_cons]
    dsimp only
    split
    · omega
    · exact Nat.lt_succ_of_le (length_skipBalanced_le _ ls)

theorem length_skipAngles_le (depth : Nat) (ls : List Lexeme) :
    (skipAngles depth ls).length ≤ ls.length := by
  induction ls generalizing depth with
  | nil => exact Nat.le_refl _
  | cons l ls ih =>
    have hrest : ∀ d : Nat, (if d == 0 then ls else skipAngles d ls).length ≤ ls.length + 1 := by
      intro d
      split
      · omega
      · exact Nat.le_succ_of_le (ih d)
    rw [skipAngles, List.length_cons]
    split
    · exact Nat.le_refl _
    · exact hrest _

theorem length_skipMembers_le (ls : List Lexeme) : (skipMembers ls).length ≤ ls.length := by
  induction ls using skipMembers.induct with
  | case1 d n ls h ih =>
    rw [skipMembers, if_pos h]
    simp only [List.length_cons]
    omega
  | case2 d n ls h => exact Nat.le_of_eq (by rw [skipMembers, if_neg h])
  | case3 ls h =>
    have hstop : skipMembers ls = ls := by
      rw [skipMembers]
      exact h
    exact Nat.le_of_eq (congrArg List.length hstop)

/-- An attribute is at least its `@`. -/
theorem length_skipAttribute_lt (h : headKind ls ≠ .eof) :
    (skipAttribute ls).length < ls.length := by
  have hat : (ls.drop 1).length < ls.length := length_drop_lt h Nat.one_pos
  have hname : ∀ ls : List Lexeme,
      (if (headKind ls).isNameLike then skipMembers (ls.drop 1) else ls).length ≤ ls.length := by
    intro ls
    split
    · exact Nat.le_trans (length_skipMembers_le _) (by simp)
    · exact Nat.le_refl _
  have hangles : ∀ ls : List Lexeme,
      (if seesJoined .lt ls then skipAngles 0 ls else ls).length ≤ ls.length := by
    intro ls
    split
    · exact length_skipAngles_le 0 ls
    · exact Nat.le_refl _
  have hparens : ∀ ls : List Lexeme,
      (if seesJoined .lParen ls then skipBalanced 0 ls else ls).length ≤ ls.length := by
    intro ls
    split
    · exact length_skipBalanced_le 0 ls
    · exact Nat.le_refl _
  exact Nat.lt_of_le_of_lt (hparens _)
    (Nat.lt_of_le_of_lt (hangles _) (Nat.lt_of_le_of_lt (hname _) hat))

/-! ## Steps -/

/-- A step that leaves fewer lexemes whenever it skips anything. -/
def Shortens (skip : List Lexeme → Option (List Lexeme)) : Prop :=
  ∀ ls rest, skip ls = some rest → rest.length < ls.length

theorem shortens_skipAttribute? : Shortens skipAttribute? := by
  intro ls rest h
  unfold skipAttribute? at h
  split at h
  · next hat =>
    obtain rfl := Option.some.inj h
    exact length_skipAttribute_lt (headKind_of_beq hat rfl)
  · exact absurd h (by simp)

theorem headKind_of_atModifier (h : atModifier ls = true) : headKind ls ≠ .eof := by
  cases ls with
  | nil => simp [atModifier, headKind, atModifierWord] at h
  | cons l ls =>
    intro hk
    simp only [headKind] at hk
    simp [atModifier, headKind, atModifierWord, hk] at h

theorem shortens_skipModifier? : Shortens skipModifier? := by
  intro ls rest h
  unfold skipModifier? at h
  split at h
  · next hmod =>
    obtain rfl := Option.some.inj h
    exact length_drop_lt (headKind_of_atModifier hmod) (by split <;> omega)
  · exact absurd h (by simp)

theorem headKind_of_atEffect (h : atEffect ls = true) : headKind ls ≠ .eof := by
  cases ls with
  | nil => simp [atEffect, atThrows, headKind, spells] at h
  | cons l ls =>
    intro hk
    simp only [headKind] at hk
    simp [atEffect, atThrows, headKind, spells, hk] at h

theorem shortens_skipEffect? : Shortens skipEffect? := by
  intro ls rest h
  unfold skipEffect? at h
  split at h
  · next hthrows =>
    have hne : headKind ls ≠ .eof := headKind_of_atEffect (by simp [atEffect, hthrows])
    have hdrop : (ls.drop 1).length < ls.length := length_drop_lt hne Nat.one_pos
    obtain rfl := Option.some.inj h
    split
    · exact Nat.lt_of_le_of_lt (length_skipBalanced_le 0 _) hdrop
    · exact hdrop
  · split at h
    · next heffect =>
      obtain rfl := Option.some.inj h
      exact length_drop_lt (headKind_of_atEffect heffect) Nat.one_pos
    · exact absurd h (by simp)

/-! ## Loops of steps -/

variable {skip : List Lexeme → Option (List Lexeme)}

/-- Any two numbers of rounds that cover the lexemes give the same result. -/
theorem skipMany_congr (h : Shortens skip) {m n : Nat} (hm : ls.length ≤ m)
    (hn : ls.length ≤ n) : skipMany skip m ls = skipMany skip n ls := by
  have hnil : skip [] = none := by
    cases hs : skip [] with
    | none => rfl
    | some rest => exact absurd (h [] rest hs) (Nat.not_lt_zero _)
  induction m generalizing n ls with
  | zero =>
    obtain rfl : ls = [] := List.length_eq_zero_iff.mp (by omega)
    cases n with
    | zero => rfl
    | succ n => simp [skipMany, hnil]
  | succ m ih =>
    cases n with
    | zero =>
      obtain rfl : ls = [] := List.length_eq_zero_iff.mp (by omega)
      simp [skipMany, hnil]
    | succ n =>
      rw [skipMany, skipMany]
      split
      · next rest hs =>
        have hlt := h ls rest hs
        exact ih (by omega) (by omega)
      · rfl

theorem length_skipMany_le (h : Shortens skip) (n : Nat) (ls : List Lexeme) :
    (skipMany skip n ls).length ≤ ls.length := by
  induction n generalizing ls with
  | zero => exact Nat.le_refl _
  | succ n ih =>
    rw [skipMany]
    split
    · next rest hs => exact Nat.le_trans (ih rest) (Nat.le_of_lt (h ls rest hs))
    · exact Nat.le_refl _

/-! ## Closures -/

theorem length_skipCaptures_le (ls : List Lexeme) : (skipCaptures ls).length ≤ ls.length := by
  have hattr : (skipAttributes ls).length ≤ ls.length :=
    length_skipMany_le shortens_skipAttribute? _ ls
  unfold skipCaptures
  dsimp only
  split
  · exact Nat.le_trans (length_skipBalanced_le 0 _) hattr
  · exact hattr

/-- The search for the end of a signature covers as many lexemes as it may with any number of
    rounds that reaches the limit: a round passes at least one lexeme. -/
theorem atSignatureEnd_congr {total m n : Nat} (ht : ls.length ≤ total)
    (hm : signatureLimit ≤ m + (total - ls.length))
    (hn : signatureLimit ≤ n + (total - ls.length)) :
    atSignatureEnd total m ls = atSignatureEnd total n ls := by
  have hlimit : ∀ n ls, signatureLimit ≤ total - ls.length → atSignatureEnd total n ls = false := by
    intro n ls h
    cases n with
    | zero => rfl
    | succ n => rw [atSignatureEnd, if_pos h]
  induction m generalizing n ls with
  | zero =>
    rw [hlimit 0 ls (by omega), hlimit n ls (by omega)]
  | succ m ih =>
    cases n with
    | zero => rw [hlimit (m + 1) ls (by omega), hlimit 0 ls (by omega)]
    | succ n =>
      have hpass : ∀ rest : List Lexeme, rest.length < ls.length →
          atSignatureEnd total m rest = atSignatureEnd total n rest := fun rest hlt =>
        ih (by omega) (by omega) (by omega)
      rw [atSignatureEnd, atSignatureEnd]
      split
      · rfl
      · split
        · rfl
        · next hk => exact hpass _ (length_skipBalanced_lt (by simp [hk]))
        · next hk => exact hpass _ (length_skipBalanced_lt (by simp [hk]))
        · next hk => exact hpass _ (length_skipAttribute_lt (by simp [hk]))
        · cases hsig : isSignatureKind (headKind ls) with
          | false => rfl
          | true =>
            have hne : headKind ls ≠ .eof := by
              intro hk
              rw [hk] at hsig
              exact absurd hsig (by decide)
            rw [hpass _ (length_drop_lt hne Nat.one_pos)]

end Lookahead

end SwiftOutline
