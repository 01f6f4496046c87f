/-
  SwiftOutline.Proofs.Token.Gap

  The tokens that are no trivia, and the trivia gap by gap between them. Of each
  gap the lexemes keep whether it is empty and whether it holds a line feed, and
  nothing else.
-/
import SwiftOutline.Grammar.Lexeme

namespace SwiftOutline

namespace Token

/-! ## Significant tokens -/

/-- The tokens that are no trivia. -/
def significant (ts : List Token) : List Token := ts.filter fun t => !t.isTrivia

theorem significant_append (ts us : List Token) :
    significant (ts ++ us) = significant ts ++ significant us :=
  List.filter_append ..

theorem significant_dropWhile (ts : List Token) :
    significant (ts.dropWhile isTrivia) = significant ts := by
  induction ts with
  | nil => rfl
  | cons t ts ih =>
    cases ht : t.isTrivia with
    | true => rw [List.dropWhile_cons_of_pos ht, ih]; simp [significant, ht]
    | false => rw [List.dropWhile_cons_of_neg (by simp [ht])]

/-- Behind the trivia comes a token that is none. -/
theorem dropWhile_dropWhile (ts : List Token) :
    (ts.dropWhile isTrivia).dropWhile isTrivia = ts.dropWhile isTrivia := by
  induction ts with
  | nil => rfl
  | cons t ts ih =>
    cases ht : t.isTrivia with
    | true => rw [List.dropWhile_cons_of_pos ht, ih]
    | false =>
      have hstop : ¬ (t.isTrivia = true) := by simp [ht]
      rw [List.dropWhile_cons_of_neg hstop, List.dropWhile_cons_of_neg hstop]

/-- A sequence that does not begin with trivia begins with its first significant token. -/
theorem eq_cons_of_significant {t : Token} {ts more : List Token} (h : significant ts = t :: more)
    (hts : ts.dropWhile isTrivia = ts) : ∃ us, ts = t :: us ∧ significant us = more := by
  cases ts with
  | nil => simp [significant] at h
  | cons u us =>
    have hu : u.isTrivia = false := by
      cases hu : u.isTrivia with
      | false => rfl
      | true =>
        have hlen := (List.dropWhile_suffix (l := us) isTrivia).length_le
        rw [List.dropWhile_cons_of_pos hu] at hts
        have := congrArg List.length hts
        rw [List.length_cons] at this
        omega
    rw [significant, List.filter_cons_of_pos (by simp [hu])] at h
    obtain ⟨rfl, hmore⟩ := List.cons.inj h
    exact ⟨us, rfl, hmore⟩

/-! ## Gaps between tokens -/

/-- The trivia before each token that is none, and at the end those behind the last one, when
    `seen` was read before. -/
def gapsAfter : (seen : List Token) → List Token → List (List Token)
  | seen, [] => [seen]
  | seen, t :: ts =>
    if t.isTrivia then gapsAfter (seen ++ [t]) ts else seen :: gapsAfter [] ts

/-- The trivia before each token that is none, and at the end those behind the last one. -/
def gaps (ts : List Token) : List (List Token) := gapsAfter [] ts

/-- Whether there is a line feed in the text of a gap. -/
def hasLineFeed (gap : List Token) : Bool := gap.any fun t => t.text.toList.contains '\n'

/-- One gap is empty if and only if the other is, and has a line feed if and only if the other
    has one. -/
def GapsAgree (gap gap' : List Token) : Prop :=
  gap.isEmpty = gap'.isEmpty ∧ hasLineFeed gap = hasLineFeed gap'

instance (gap gap' : List Token) : Decidable (GapsAgree gap gap') :=
  inferInstanceAs (Decidable (_ ∧ _))

theorem length_gapsAfter (seen ts : List Token) :
    (gapsAfter seen ts).length = (significant ts).length + 1 := by
  induction ts generalizing seen with
  | nil => rfl
  | cons t ts ih =>
    rw [gapsAfter]
    cases ht : t.isTrivia with
    | true =>
      rw [if_pos rfl, ih, significant, significant, List.filter_cons_of_neg (by simp [ht])]
    | false =>
      rw [if_neg (by simp), List.length_cons, ih, significant, significant,
        List.filter_cons_of_pos (by simp [ht]), List.length_cons]

/-- There is one gap more than there are significant tokens. -/
theorem length_gaps (ts : List Token) : (gaps ts).length = (significant ts).length + 1 :=
  length_gapsAfter [] ts

end Token

/-! ## What lexemes keep of gaps -/

namespace Gap

/-- What matters of a gap. -/
def ofTrivia (gap : List Token) : Gap := gap.foldl Gap.extend .none

theorem ofTrivia_eq (gap : List Token) :
    ofTrivia gap = ⟨!gap.isEmpty, Token.hasLineFeed gap⟩ := by
  have hfold : ∀ g : Gap, gap.foldl Gap.extend g =
      ⟨g.trivia || !gap.isEmpty, g.newline || Token.hasLineFeed gap⟩ := by
    induction gap with
    | nil => intro g; simp [Token.hasLineFeed]
    | cons t gap ih =>
      intro g
      rw [List.foldl_cons, ih]
      simp [Gap.extend, Token.hasLineFeed, Bool.or_assoc]
  rw [ofTrivia, hfold]
  simp [Gap.none]

end Gap

namespace Lexeme

theorem map_token_ofTokensAfter (gap : Gap) (ts : List Token) :
    (ofTokensAfter gap ts).1.map token = Token.significant ts := by
  induction ts generalizing gap with
  | nil => rfl
  | cons t ts ih =>
    rw [ofTokensAfter]
    cases ht : t.isTrivia with
    | true =>
      rw [if_pos rfl, ih, Token.significant, Token.significant,
        List.filter_cons_of_neg (by simp [ht])]
    | false =>
      rw [if_neg (by simp), Token.significant, List.filter_cons_of_pos (by simp [ht])]
      exact congrArg (t :: ·) (ih .none)

/-- The lexemes of a token sequence are its significant tokens. -/
theorem map_token_ofTokens (ts : List Token) : (ofTokens ts).1.map token = Token.significant ts :=
  map_token_ofTokensAfter .none ts

theorem map_gap_ofTokensAfter (seen ts : List Token) :
    (ofTokensAfter (.ofTrivia seen) ts).1.map gap ++ [(ofTokensAfter (.ofTrivia seen) ts).2] =
      (Token.gapsAfter seen ts).map Gap.ofTrivia := by
  induction ts generalizing seen with
  | nil => rfl
  | cons t ts ih =>
    rw [ofTokensAfter, Token.gapsAfter]
    cases ht : t.isTrivia with
    | true =>
      have hextend : (Gap.ofTrivia seen).extend t = Gap.ofTrivia (seen ++ [t]) := by
        rw [Gap.ofTrivia, Gap.ofTrivia, List.foldl_append, List.foldl_cons, List.foldl_nil]
      rw [if_pos rfl, if_pos rfl, hextend, ih]
    | false =>
      rw [if_neg (by simp), if_neg (by simp), List.map_cons]
      exact congrArg (Gap.ofTrivia seen :: ·) (ih [])

/-- The gaps of the lexemes, and the one behind them, are what matters of the gaps of the text. -/
theorem map_gap_ofTokens (ts : List Token) :
    (ofTokens ts).1.map gap ++ [(ofTokens ts).2] = (Token.gaps ts).map Gap.ofTrivia :=
  map_gap_ofTokensAfter [] ts

end Lexeme

end SwiftOutline
