/-
  SwiftOutline.Proofs.Token.Literal

  Texts without white space at their ends, such as words and literals. A number
  has none at all, and a string literal ends with its delimiter, whatever stands
  inside it.
-/
import SwiftOutline.Proofs.Token.Closing
import SwiftOutline.Text.Blank

namespace SwiftOutline

/-! ## Texts that are trimmed -/

namespace Text

theorem isBlank_of_isWordChar {c : Char} (h : Lexer.isWordChar c = true) : isBlank c = false := by
  have hrange : 0x30 ≤ c.toNat ∧ c.toNat ≤ 0x7A := by
    simp only [Lexer.isWordChar, Char.isAlphanum, Lexer.isAlpha_iff,
      Char.isDigit, Bool.or_eq_true, Bool.and_eq_true, decide_eq_true_eq, ge_iff_le,
      UInt32.le_iff_toNat_le, beq_iff_eq] at h
    rcases h with ((⟨hle, hge⟩ | ⟨hle, hge⟩) | ⟨hle, hge⟩) | rfl
    · exact ⟨Nat.le_trans (by decide) hle, Nat.le_trans hge (by decide)⟩
    · exact ⟨Nat.le_trans (by decide) hle, Nat.le_trans hge (by decide)⟩
    · exact ⟨Nat.le_trans (by decide) hle, Nat.le_trans hge (by decide)⟩
    · decide
  simp only [isBlank, Bool.or_eq_false_iff, Bool.and_eq_false_iff, decide_eq_false_iff_not,
    beq_eq_false_iff_ne]
  omega

/-- A text whose first and last character are no blanks stays as it is. -/
theorem trim_eq_self_of_ends {s : String} (hfirst : ∀ c ∈ s.toList.head?, isBlank c = false)
    (hlast : ∀ c ∈ s.toList.getLast?, isBlank c = false) : trim s = s := by
  have hdrop : ∀ cs : List Char, (∀ c ∈ cs.head?, isBlank c = false) →
      cs.dropWhile isBlank = cs := by
    intro cs hcs
    cases cs with
    | nil => rfl
    | cons c cs => rw [List.dropWhile_cons_of_neg (by simp [hcs c rfl])]
  have hreverse : ∀ c ∈ s.toList.reverse.head?, isBlank c = false := by
    rwa [List.head?_reverse]
  rw [trim, trimChars, hdrop _ hfirst, hdrop _ hreverse, List.reverse_reverse, String.ofList_toList]

/-- A text without blanks stays as it is. -/
theorem trim_eq_self {s : String} (h : ∀ c ∈ s.toList, isBlank c = false) : trim s = s :=
  trim_eq_self_of_ends (fun c hc => h c (List.mem_of_mem_head? hc))
    fun c hc => h c (List.mem_of_mem_getLast? hc)

end Text

/-- A byte below 128 is the code of its character. -/
theorem Utf8.toNat_of_encode {d : Char} {b : UInt8} (h : encode [d] = [b]) (hb : b.toNat < 0x80) :
    d.toNat = b.toNat := by
  rw [encode_cons, encode_nil, List.append_nil] at h
  have hlow : ¬ 0x7f < d.val.toNat := by
    intro hd
    have hge := le_of_mem_utf8EncodeChar hd (h ▸ List.mem_singleton_self b)
    omega
  unfold String.utf8EncodeChar at h
  dsimp only at h
  rw [if_pos (by omega)] at h
  obtain rfl := List.singleton_inj.mp h
  rw [UInt8.toNat_ofNat', Nat.mod_eq_of_lt (by omega)]
  rfl

namespace Lexer

variable {c d : Char} {cs : List Char} {k : TokenKind} {n : Nat} {p : Char → Bool}

/-! ## Numbers -/

/-- What numbers consist of. -/
def isNumberChar (d : Char) : Bool := isWordChar d || d == '.' || d == '+' || d == '-'

theorem isBlank_of_isNumberChar (h : isNumberChar d = true) : Text.isBlank d = false := by
  simp only [isNumberChar, Bool.or_eq_true, beq_iff_eq] at h
  rcases h with ((h | rfl) | rfl) | rfl
  · exact Text.isBlank_of_isWordChar h
  · decide
  · decide
  · decide

theorem isNumberChar_of_isDigit (h : d.isDigit = true) : isNumberChar d = true := by
  simp [isNumberChar, isWordChar, Char.isAlphanum, h]

theorem isNumberChar_of_isHexDigit (h : isHexDigit d = true) : isNumberChar d = true := by
  have halpha : d.isAlpha = true → isNumberChar d = true := by
    intro halpha
    simp [isNumberChar, isWordChar, Char.isAlphanum, halpha]
  simp only [isHexDigit, Bool.or_eq_true, Bool.and_eq_true, decide_eq_true_eq] at h
  rcases h with (h | ⟨hlow, hhigh⟩) | ⟨hlow, hhigh⟩
  · exact isNumberChar_of_isDigit h
  · have hlow : 97 ≤ d.toNat := hlow
    have hhigh : d.toNat ≤ 102 := hhigh
    exact halpha (isAlpha_iff.mpr (.inr ⟨hlow, by omega⟩))
  · have hlow : 65 ≤ d.toNat := hlow
    have hhigh : d.toNat ≤ 70 := hhigh
    exact halpha (isAlpha_iff.mpr (.inl ⟨hlow, by omega⟩))

/-- The digits of a run and the `_` between them. -/
theorem isNumberChar_of_mem_digits {q : Char → Bool}
    (hq : ∀ d, q d = true → isNumberChar d = true)
    (h : d ∈ cs.take (cs.takeWhile fun d => q d || d == '_').length) : isNumberChar d = true := by
  rw [take_length_takeWhile] at h
  have hd := List.mem_takeWhile_imp h
  simp only [Bool.or_eq_true, beq_iff_eq] at hd
  rcases hd with hd | rfl
  · exact hq d hd
  · decide

theorem isNumberChar_of_mem_digitRun {q : Char → Bool}
    (hq : ∀ d, q d = true → isNumberChar d = true) (h : d ∈ cs.take (digitRun q cs)) :
    isNumberChar d = true := by
  cases cs with
  | nil => cases h
  | cons c cs =>
    rw [digitRun] at h
    split at h
    · next hc =>
      rw [Nat.add_comm, List.take_succ_cons] at h
      rcases List.mem_cons.mp h with rfl | h
      · exact hq _ hc
      · exact isNumberChar_of_mem_digits hq h
    · cases h

theorem isNumberChar_of_mem_exponentRun (h : d ∈ cs.take (exponentRun cs)) :
    isNumberChar d = true := by
  cases cs with
  | nil => cases h
  | cons e cs =>
    rw [exponentRun] at h
    split at h
    · next he =>
      have hmark : isNumberChar e = true := by
        simp only [Bool.or_eq_true, beq_iff_eq] at he
        rcases he with rfl | rfl <;> decide
      have hsign : ∀ d ∈ cs.take (signRun cs), isNumberChar d = true := by
        intro d hd
        cases cs with
        | nil => cases hd
        | cons s cs =>
          rw [signRun] at hd
          split at hd
          · next hs =>
            obtain rfl := List.mem_singleton.mp hd
            simp only [Bool.or_eq_true, beq_iff_eq] at hs
            rcases hs with rfl | rfl <;> decide
          · cases hd
      split at h
      · cases h
      · next digits hdigits =>
        rw [Nat.add_assoc, Nat.add_comm, List.take_succ_cons, List.take_add] at h
        rcases List.mem_cons.mp h with rfl | h
        · exact hmark
        · rcases List.mem_append.mp h with h | h
          · exact hsign d h
          · rw [← Nat.succ_eq_add_one, ← hdigits] at h
            exact isNumberChar_of_mem_digitRun (fun _ => isNumberChar_of_isDigit) h
    · cases h

theorem isNumberChar_of_mem_fractionRun (h : d ∈ cs.take (fractionRun cs)) :
    isNumberChar d = true := by
  unfold fractionRun at h
  split at h
  · split at h
    · cases h
    · next digits hdigits =>
      rw [Nat.add_comm, List.take_succ_cons] at h
      rcases List.mem_cons.mp h with rfl | h
      · decide
      · rw [← Nat.succ_eq_add_one, ← hdigits] at h
        exact isNumberChar_of_mem_digitRun (fun _ => isNumberChar_of_isDigit) h
  · cases h

theorem isNumberChar_of_mem_basedRun (h : d ∈ cs.take (basedRun cs)) : isNumberChar d = true := by
  have hoctal : ∀ d, isOctalDigit d = true → isNumberChar d = true := by
    intro d hd
    simp only [isOctalDigit, Bool.and_eq_true, decide_eq_true_eq] at hd
    have hdigit : d.isDigit = true := by
      simp only [Char.isDigit, Bool.and_eq_true, decide_eq_true_eq]
      exact ⟨hd.1, Nat.le_trans (show d.toNat ≤ 55 from hd.2) (by decide)⟩
    exact isNumberChar_of_isDigit hdigit
  have hbinary : ∀ d, isBinaryDigit d = true → isNumberChar d = true := by
    intro d hd
    simp only [isBinaryDigit, Bool.or_eq_true, beq_iff_eq] at hd
    rcases hd with rfl | rfl <;> decide
  cases cs with
  | nil => cases h
  | cons mark cs =>
    -- behind a mark there are digits of its base
    have hdigits : (if mark == 'x' then digitRun isHexDigit cs
        else if mark == 'o' then digitRun isOctalDigit cs
        else if mark == 'b' then digitRun isBinaryDigit cs
        else 0) = 0 ∨ isNumberChar mark = true ∧ ∀ d ∈ cs.take (if mark == 'x' then
          digitRun isHexDigit cs
        else if mark == 'o' then digitRun isOctalDigit cs
        else if mark == 'b' then digitRun isBinaryDigit cs
        else 0), isNumberChar d = true := by
      split
      · next hmark =>
        obtain rfl := beq_iff_eq.mp hmark
        exact .inr ⟨by decide, fun _ =>
          isNumberChar_of_mem_digitRun fun _ => isNumberChar_of_isHexDigit⟩
      split
      · next hmark =>
        obtain rfl := beq_iff_eq.mp hmark
        exact .inr ⟨by decide, fun _ => isNumberChar_of_mem_digitRun hoctal⟩
      split
      · next hmark =>
        obtain rfl := beq_iff_eq.mp hmark
        exact .inr ⟨by decide, fun _ => isNumberChar_of_mem_digitRun hbinary⟩
      · exact .inl rfl
    rw [basedRun] at h
    generalize (if mark == 'x' then digitRun isHexDigit cs
        else if mark == 'o' then digitRun isOctalDigit cs
        else if mark == 'b' then digitRun isBinaryDigit cs
        else 0) = digits at h hdigits
    cases digits with
    | zero => cases h
    | succ digits =>
      obtain hnone | ⟨hmark, hdigits⟩ := hdigits
      · cases hnone
      · have htaken : d ∈ (mark :: cs).take (1 + (digits + 1)) := h
        rw [Nat.add_comm, List.take_succ_cons] at htaken
        rcases List.mem_cons.mp htaken with rfl | htaken
        · exact hmark
        · exact hdigits d htaken

/-- A number consists of digits, letters, `_`, points and signs. -/
theorem isNumberChar_of_mem_number (h : d ∈ cs.take (number c cs).2) : isNumberChar d = true := by
  have hbased : ∀ d ∈ cs.take (if c == '0' then basedRun cs else 0), isNumberChar d = true := by
    intro d hd
    split at hd
    · exact isNumberChar_of_mem_basedRun hd
    · cases hd
  have hwhole : ∀ d ∈ cs.take (cs.takeWhile fun d => d.isDigit || d == '_').length,
      isNumberChar d = true := fun _ => isNumberChar_of_mem_digits fun _ => isNumberChar_of_isDigit
  unfold number at h
  generalize (if c == '0' then basedRun cs else 0) = based at h hbased
  dsimp only at h
  split at h
  · exact hbased d h
  split at h
  · exact hwhole d h
  · rw [List.take_add, List.take_add] at h
    rcases List.mem_append.mp h with h | h
    · rcases List.mem_append.mp h with h | h
      · exact hwhole d h
      · exact isNumberChar_of_mem_fractionRun h
    · exact isNumberChar_of_mem_exponentRun h

/-! ## String literals -/

/-- A string literal ends with a quote or a pound sign. -/
theorem exists_last_of_string {q : Quote} {opening : Nat}
    (h : string q opening (cs.drop opening) = some (k, n)) (hk : k.isLiteral = true) :
    ∃ ys d, cs.take n = ys ++ [d] ∧ Text.isBlank d = false := by
  unfold string at h
  dsimp only at h
  cases hrest : q.rest? (Utf8.encode (cs.drop opening)) with
  | none =>
    -- a literal that does not end is an error
    simp only [hrest, Option.bind_eq_bind, Option.bind_eq_some_iff, Option.pure_def,
      Option.some.injEq, Prod.mk.injEq] at h
    obtain ⟨-, -, rfl, -⟩ := h
    exact absurd hk (by decide)
  | some after =>
    simp only [hrest, Option.bind_eq_bind, Option.bind_eq_some_iff, Option.pure_def,
      Option.some.injEq, Prod.mk.injEq] at h
    obtain ⟨m, hm, -, rfl⟩ := h
    obtain ⟨pre, b, hsplit, hb⟩ := Quote.follows_of_rest? hrest
    have hbyte : b.toNat = 0x22 ∨ b.toNat = 0x23 := by
      rcases hb with rfl | rfl
      · exact .inl rfl
      · exact .inr rfl
    obtain ⟨xs, d, ys, hbody, -, hd, rfl⟩ := Utf8.exists_split_of_ascii hsplit (by omega)
    have hcode := Utf8.toNat_of_encode hd (by omega)
    have hblank : Text.isBlank d = false := by
      rcases hbyte with hbyte | hbyte <;> simp [Text.isBlank, hcode, hbyte]
    have hmove : cs.drop opening = (xs ++ [d]) ++ ys := by rw [hbody]; simp
    have hcount : m = xs.length + 1 := by
      rw [hmove, Utf8.encode_append (xs ++ [d]), List.length_append, Nat.add_sub_cancel,
        Utf8.charsIn?_encode] at hm
      simpa using (Option.some.inj hm).symm
    refine ⟨cs.take opening ++ xs, d, ?_, hblank⟩
    have htaken : (xs ++ [d] ++ ys).take (xs.length + 1) = xs ++ [d] := List.take_left' (by simp)
    rw [List.take_add, hmove, hcount, htaken, List.append_assoc]

/-! ## Literals -/

/-- Behind a `#` a literal is a string. -/
theorem exists_string_of_pound (h : pound cs = some (k, n)) (hk : k.isLiteral = true) :
    ∃ q opening, string q opening (cs.drop opening) = some (k, n) := by
  unfold pound at h
  dsimp only at h
  generalize (cs.takeWhile (· == '#')).length = more at h
  split at h
  · next body hbody =>
    have hdrop : cs.drop (more + 1) = body := by rw [← List.tail_drop, hbody, List.tail_cons]
    split at h
    · have hmore : cs.drop (more + 3) = body.drop 2 := by rw [← hdrop, List.drop_drop]
      rw [← hmore] at h
      exact ⟨_, _, h⟩
    · rw [← hdrop] at h
      exact ⟨_, _, h⟩
  · split at h
    · rw [← (Prod.mk.inj (Option.some.inj h)).1] at hk
      unfold directiveKind at hk
      split at hk <;> exact absurd hk (by decide)
    · rw [← (Prod.mk.inj (Option.some.inj h)).1] at hk
      exact absurd hk (by decide)
  · rw [← (Prod.mk.inj (Option.some.inj h)).1] at hk
    exact absurd hk (by decide)

/-- A literal that is no word is a number or a string literal. -/
theorem number_or_string (h : token c cs = some (k, n)) (hk : k.isLiteral = true)
    (hword : k.isWord = false) :
    c.isDigit = true ∧ number c cs = (k, n) ∨
      (c = '"' ∨ c = '#') ∧ ∃ q opening, string q opening (cs.drop opening) = some (k, n) := by
  have hnone {ks : List TokenKind} : ks.any TokenKind.isLiteral = false → k ∉ ks :=
    not_mem_kinds hk
  cases readBy_of_token h with
  | blank _ kind =>
    subst kind
    cases hk
  | slash _ read => exact absurd (kinds_of_slash read) (hnone rfl)
  | point _ read => exact absurd (congrArg Prod.fst read ▸ kinds_point cs) (hnone rfl)
  | pound char read => exact .inr ⟨.inr char, exists_string_of_pound read hk⟩
  | quote char read => exact .inr ⟨.inl char, _, _, read⟩
  | backtick _ read => exact absurd (congrArg Prod.fst read ▸ kinds_backtick cs) (hnone rfl)
  | dollar _ kind => exact absurd kind (hnone rfl)
  | number char read => exact .inl ⟨char, read⟩
  | word _ kind =>
    -- a literal that is a name is a reserved word
    rcases kinds_wordKind (String.ofList (c :: cs.takeWhile isNameChar)) with hkind | hkind
    · rw [kind, hkind] at hk
      cases hk
    · rw [kind, hkind] at hword
      cases hword
  | operator _ kind _ => exact absurd (kind ▸ kinds_operatorKind _) (hnone rfl)
  | punctuation kind _ => exact absurd (kind ▸ kinds_punctuationKind c) (hnone rfl)

/-- A literal has no white space at its ends. -/
theorem trim_of_isLiteral {text : String} (h : lex text = [⟨k, text⟩]) (hk : k.isLiteral = true) :
    Text.trim text = text := by
  have hmark : k ∉ [TokenKind.question, .exclamation, .gt] := by
    intro hmem
    simp only [List.mem_cons, List.not_mem_nil, or_false] at hmem
    rcases hmem with rfl | rfl | rfl <;> exact absurd hk (by decide)
  obtain ⟨c, w, htext, htoken⟩ := exists_token_of_lex h hmark
  cases hword : k.isWord with
  | true =>
    obtain ⟨word, hspelling, htrim⟩ : ∃ word, k.text? = some word ∧ Text.trim word = word := by
      cases k <;> first | exact absurd hk (by decide) | exact absurd hword (by decide) |
        exact ⟨_, rfl, by decide +kernel⟩
    have hsame := text_of_token htoken hspelling
    rw [List.take_length, ← htext, String.ofList_toList] at hsame
    rw [hsame, htrim]
  | false =>
    rcases number_or_string htoken hk hword with ⟨hdigit, hnumber⟩ | ⟨hc, q, opening, hstring⟩
    · refine Text.trim_eq_self fun d hd => ?_
      rw [htext] at hd
      rcases List.mem_cons.mp hd with rfl | hd
      · exact isBlank_of_isNumberChar (isNumberChar_of_isDigit hdigit)
      · have htaken : d ∈ w.take (number c w).2 := by rwa [hnumber, List.take_length]
        exact isBlank_of_isNumberChar (isNumberChar_of_mem_number htaken)
    · obtain ⟨ys, d, hlast, hd⟩ := exists_last_of_string hstring hk
      rw [List.take_length] at hlast
      refine Text.trim_eq_self_of_ends (fun x hx => ?_) fun x hx => ?_
      · rw [htext] at hx
        obtain rfl := Option.some.inj hx
        rcases hc with rfl | rfl <;> decide
      · have hend : text.toList = (c :: ys) ++ [d] := by rw [htext, hlast, List.cons_append]
        rw [hend, List.getLast?_concat] at hx
        exact Option.some.inj hx ▸ hd

end Lexer

end SwiftOutline
