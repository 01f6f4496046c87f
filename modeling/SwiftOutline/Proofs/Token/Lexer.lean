/-
  SwiftOutline.Proofs.Token.Lexer

  Every pattern of the lexer takes its token out of the text: it claims no more
  characters than there are, and where it counts bytes, these end between two
  characters.
-/
import SwiftOutline.Proofs.Token.Scanner
import SwiftOutline.Token.Lexer

namespace SwiftOutline

namespace Lexer

variable {c : Char} {cs : List Char} {k : TokenKind} {n : Nat}

/-! ## What a match is -/

/-- A token of kind `k` that consists of `c` and the first `n` characters of `cs`. -/
structure Match (c : Char) (cs : List Char) (k : TokenKind) (n : Nat) : Prop where
  length_le : n ≤ cs.length
  kind_ne_eof : k ≠ .eof
  /-- An operator of one character is no mark. -/
  not_isMark : k = .operator → n = 0 → Token.isMark c = false

/-- Most kinds ask for nothing but the length. -/
theorem Match.of_kind (hn : n ≤ cs.length) (hk : (k == .eof || k == .operator) = false) :
    Match c cs k n := by
  simp only [Bool.or_eq_false_iff, beq_eq_false_iff_ne] at hk
  exact ⟨hn, hk.1, fun h => absurd h hk.2⟩

theorem length_takeWhile_le (p : Char → Bool) (cs : List Char) :
    (cs.takeWhile p).length ≤ cs.length :=
  (List.takeWhile_prefix p).length_le

/-! ## Numbers -/

theorem digitRun_le (p : Char → Bool) (cs : List Char) : digitRun p cs ≤ cs.length := by
  cases cs with
  | nil => exact Nat.le_refl _
  | cons c cs =>
    have hrun := length_takeWhile_le (fun d => p d || d == '_') cs
    rw [digitRun, List.length_cons]
    split <;> omega

theorem exponentRun_le (cs : List Char) : exponentRun cs ≤ cs.length := by
  unfold exponentRun
  split
  · exact Nat.le_refl _
  · next e cs =>
    rw [List.length_cons]
    split
    · -- digits bound the sign too, since there is none behind the end
      have hrun := digitRun_le Char.isDigit (cs.drop (signRun cs))
      rw [List.length_drop] at hrun
      split
      · omega
      · next n hn =>
        rw [hn] at hrun
        omega
    · omega

theorem fractionRun_le (cs : List Char) : fractionRun cs ≤ cs.length := by
  unfold fractionRun
  split
  · next cs =>
    have hrun := digitRun_le Char.isDigit cs
    rw [List.length_cons]
    split
    · omega
    · next n hn =>
      rw [hn] at hrun
      omega
  · omega

theorem basedRun_le (cs : List Char) : basedRun cs ≤ cs.length := by
  cases cs with
  | nil => exact Nat.le_refl _
  | cons mark cs =>
    have hmark : (if mark == 'x' then digitRun isHexDigit cs
        else if mark == 'o' then digitRun isOctalDigit cs
        else if mark == 'b' then digitRun isBinaryDigit cs
        else 0) ≤ cs.length := by
      split
      · exact digitRun_le _ _
      · split
        · exact digitRun_le _ _
        · split
          · exact digitRun_le _ _
          · omega
    rw [basedRun, List.length_cons]
    split
    · omega
    · next n hn =>
      rw [hn] at hmark
      omega

theorem match_number : Match c cs (number c cs).1 (number c cs).2 := by
  have hbased : (if c == '0' then basedRun cs else 0) ≤ cs.length := by
    split
    · exact basedRun_le cs
    · omega
  have hwhole := length_takeWhile_le (fun d => d.isDigit || d == '_') cs
  unfold number
  generalize (if c == '0' then basedRun cs else 0) = based at hbased ⊢
  generalize (cs.takeWhile fun d => d.isDigit || d == '_').length = whole at hwhole ⊢
  have hfraction := fractionRun_le (cs.drop whole)
  have hexponent := exponentRun_le (cs.drop (whole + fractionRun (cs.drop whole)))
  rw [List.length_drop] at hfraction hexponent
  dsimp only
  split
  · exact .of_kind hbased rfl
  · split
    · exact .of_kind hwhole rfl
    · refine .of_kind ?_ rfl
      dsimp only
      omega

/-! ## Words and operators -/

theorem match_word (w : String) (hn : n ≤ cs.length) : Match c cs (wordKind w) n := by
  unfold wordKind
  split
  · exact .of_kind hn rfl
  · cases hw : TokenKind.reserved? w with
    | none => exact .of_kind hn rfl
    | some k =>
      -- reserved words have a spelling, which these kinds have not
      have hspelling := TokenKind.spelling?_of_reserved? hw
      refine .of_kind hn ?_
      show (k == .eof || k == .operator) = false
      rw [Bool.or_eq_false_iff, beq_eq_false_iff_ne, beq_eq_false_iff_ne]
      constructor
      · rintro rfl
        nomatch hspelling
      · rintro rfl
        nomatch hspelling

theorem match_operator :
    Match c cs (operatorKind (c :: cs.takeWhile isOperatorChar))
      (cs.takeWhile isOperatorChar).length := by
  refine ⟨length_takeWhile_le isOperatorChar cs, ?_, fun hkind hrun => ?_⟩
  · unfold operatorKind
    split <;> simp
  · rw [List.length_eq_zero_iff.mp hrun] at hkind
    -- a mark by itself has a kind of its own
    cases hmark : Token.isMark c with
    | false => rfl
    | true =>
      simp only [Token.isMark, Bool.or_eq_true, beq_iff_eq] at hmark
      rcases hmark with (rfl | rfl) | rfl <;> exact absurd hkind (by decide)

theorem match_directive (w : String) (hn : n ≤ cs.length) : Match c cs (directiveKind w) n := by
  unfold directiveKind
  split <;> exact .of_kind hn rfl

theorem match_punctuation : Match c cs (punctuationKind c) 0 := by
  unfold punctuationKind
  split <;> exact .of_kind (Nat.zero_le _) rfl

/-! ## Strings and comments -/

/-- The end of a literal is found between two characters. -/
theorem exists_match_string {q : Quote} {opening : Nat} {body : List Char}
    (h : opening + body.length ≤ cs.length) :
    ∃ k n, string q opening body = some (k, n) ∧ Match c cs k n := by
  cases hrest : q.rest? (Utf8.encode body) with
  | some after =>
    obtain ⟨n, hchars, hn⟩ := Utf8.charsIn?_of_followsAscii (Quote.followsAscii_of_rest? hrest)
    refine ⟨.stringLiteral, opening + n, ?_, .of_kind (by omega) rfl⟩
    simp [string, hrest, hchars]
  | none =>
    obtain ⟨n, hchars, hn⟩ : ∃ n, Utf8.charsIn? (if q.multiline then Utf8.encode body
        else (Utf8.encode body).takeWhile (· != Utf8.byte '\n')).length body = some n ∧
        n ≤ body.length := by
      split
      · exact ⟨body.length, Utf8.charsIn?_all body, Nat.le_refl _⟩
      · exact Utf8.charsIn?_takeWhile (by decide) body
    refine ⟨.error, opening + n, ?_, .of_kind (by omega) rfl⟩
    simp [string, hrest, hchars]

theorem exists_match_slash : ∃ k n, slash cs = some (k, n) ∧ Match '/' cs k n := by
  unfold slash
  split
  · next cs =>
    have hrun := length_takeWhile_le (fun c => !isLineEnd c) cs
    refine ⟨_, _, rfl, .of_kind ?_ rfl⟩
    rw [List.length_cons]
    omega
  · next cs =>
    cases hrest : Comment.rest? 0 (Utf8.encode cs) with
    | some after =>
      obtain ⟨n, hchars, hn⟩ := Utf8.charsIn?_of_followsAscii (Comment.followsAscii_of_rest? hrest)
      refine ⟨.blockComment, 1 + n, by simp [hrest, hchars], .of_kind ?_ rfl⟩
      rw [List.length_cons]
      omega
    | none =>
      refine ⟨.error, 1 + cs.length, by simp [hrest, Utf8.charsIn?_all], .of_kind ?_ rfl⟩
      rw [List.length_cons]
      omega
  · exact ⟨_, _, rfl, by simp, by simp, fun _ h => by simp at h⟩
  · exact ⟨_, _, rfl, Nat.zero_le _, by simp, fun _ _ => rfl⟩

theorem match_point : Match '.' cs (point cs).1 (point cs).2 := by
  unfold point
  split
  · exact .of_kind (by simp) rfl
  · exact ⟨by simp, by simp, fun _ h => by simp at h⟩
  · exact .of_kind (Nat.zero_le _) rfl

theorem two_le_of_opensMultiline (h : opensMultiline cs = true) : 2 ≤ cs.length := by
  have hlen := congrArg List.length (eq_of_beq h)
  rw [List.length_take, List.length_cons, List.length_cons, List.length_nil] at hlen
  omega

theorem exists_match_quote :
    ∃ k n, (if opensMultiline cs then string ⟨true, 0⟩ 2 (cs.drop 2)
      else string ⟨false, 0⟩ 0 cs) = some (k, n) ∧ Match c cs k n := by
  split
  · next hopens =>
    have htwo := two_le_of_opensMultiline hopens
    refine exists_match_string ?_
    rw [List.length_drop]
    omega
  · exact exists_match_string (by omega)

theorem exists_match_pound : ∃ k n, pound cs = some (k, n) ∧ Match c cs k n := by
  have hmore := length_takeWhile_le (· == '#') cs
  unfold pound
  dsimp only
  split
  · next body hdrop =>
    have hlen : (cs.takeWhile (· == '#')).length + 1 + body.length = cs.length := by
      have := congrArg List.length hdrop
      rw [List.length_drop, List.length_cons] at this
      omega
    split
    · next hopens =>
      have htwo := two_le_of_opensMultiline hopens
      refine exists_match_string ?_
      rw [List.length_drop]
      omega
    · exact exists_match_string (by omega)
  · split
    · exact ⟨_, _, rfl, match_directive _ (length_takeWhile_le _ _)⟩
    · exact ⟨_, _, rfl, .of_kind hmore rfl⟩
  · exact ⟨_, _, rfl, .of_kind hmore rfl⟩

theorem match_backtick : Match c cs (backtick cs).1 (backtick cs).2 := by
  have hname := length_takeWhile_le (fun c => c != '\x60' && !isLineEnd c) cs
  unfold backtick
  dsimp only
  split
  · next after hdrop =>
    have hlen := congrArg List.length hdrop
    rw [List.length_drop, List.length_cons] at hlen
    split
    · exact .of_kind (Nat.zero_le _) rfl
    · refine .of_kind ?_ rfl
      dsimp only
      omega
  · exact .of_kind hname rfl

/-! ## All tokens -/

/-- Where there is a character, there is a token. -/
theorem exists_match_token (c : Char) (cs : List Char) :
    ∃ k n, token c cs = some (k, n) ∧ Match c cs k n := by
  unfold token
  by_cases hblank : isBlank c = true
  · rw [if_pos hblank]
    exact ⟨_, _, rfl, .of_kind (length_takeWhile_le _ _) rfl⟩
  rw [if_neg hblank]
  by_cases hslash : (c == '/') = true
  · rw [if_pos hslash]
    exact eq_of_beq hslash ▸ exists_match_slash
  rw [if_neg hslash]
  by_cases hpoint : (c == '.') = true
  · rw [if_pos hpoint]
    exact ⟨_, _, rfl, eq_of_beq hpoint ▸ match_point⟩
  rw [if_neg hpoint]
  by_cases hpound : (c == '#') = true
  · rw [if_pos hpound]
    exact exists_match_pound
  rw [if_neg hpound]
  by_cases hquote : (c == '"') = true
  · rw [if_pos hquote]
    exact exists_match_quote
  rw [if_neg hquote]
  by_cases htick : (c == '\x60') = true
  · rw [if_pos htick]
    exact ⟨_, _, rfl, match_backtick⟩
  rw [if_neg htick]
  by_cases hdollar : (c == '$') = true
  · rw [if_pos hdollar]
    have hword := length_takeWhile_le isWordChar cs
    split
    · exact ⟨_, _, rfl, .of_kind (Nat.zero_le _) rfl⟩
    · next n hn => exact ⟨_, _, rfl, .of_kind (by omega) rfl⟩
  rw [if_neg hdollar]
  by_cases hdigit : c.isDigit = true
  · rw [if_pos hdigit]
    exact ⟨_, _, rfl, match_number⟩
  rw [if_neg hdigit]
  by_cases hname : isNameStart c = true
  · rw [if_pos hname]
    exact ⟨_, _, rfl, match_word _ (length_takeWhile_le _ _)⟩
  rw [if_neg hname]
  by_cases hop : isOperatorChar c = true
  · rw [if_pos hop]
    exact ⟨_, _, rfl, match_operator⟩
  · rw [if_neg hop]
    exact ⟨_, _, rfl, match_punctuation⟩

end Lexer

end SwiftOutline
