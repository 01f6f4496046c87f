/-
  SwiftOutline.Proofs.Token.Spelling

  Texts that the lexer reads back. A token that is written down is found again if
  what is written behind it does not continue it: a word has to end, and a mark
  such as `?` may stand before other marks but before no other operator character.
-/
import Mathlib.Data.List.TakeWhile
import SwiftOutline.Proofs.Token.Tiling

namespace SwiftOutline

namespace TokenKind

/-- Whether tokens of a kind are names, reserved words or directives. -/
def isWord (k : TokenKind) : Bool := k.isNameLike || k.isDirective

/-- The text that all tokens of a kind have, if they are reserved words or directives. -/
def text? : TokenKind → Option String
  | .poundIf => some "#if"
  | .poundElseif => some "#elseif"
  | .poundElse => some "#else"
  | .poundEndif => some "#endif"
  | k => k.spelling?

theorem text?_of_spelling? {k : TokenKind} {w : String} (h : k.spelling? = some w) :
    k.text? = some w := by
  cases k <;> first | exact h | cases h

theorem isWord_of_text? {k : TokenKind} (h : k.text?.isSome = true) : k.isWord = true := by
  cases k <;> first | rfl | cases h

/-- Whether tokens of a kind are brackets. -/
def isBracket (k : TokenKind) : Bool := k.isOpener || k.isCloser

theorem not_isBracket_of_isWord {k : TokenKind} (h : k.isWord = true) : k.isBracket = false := by
  cases k <;> first | rfl | cases h

theorem not_mark_of_isNameLike {k : TokenKind} (h : k.isNameLike = true) :
    k ∉ [question, exclamation, gt] := by
  intro hmem
  simp only [List.mem_cons, List.not_mem_nil, or_false] at hmem
  rcases hmem with rfl | rfl | rfl <;> exact absurd h (by decide)

end TokenKind

namespace Lexer

variable {c : Char} {w cs rest : List Char} {text : String} {k : TokenKind}

/-- What is tested of the elements of a list holds of each. Characters are finitely many, so a
    decision of the statement itself could try every one of them. -/
theorem forall_mem_of_all {α : Type} {p : α → Prop} [DecidablePred p] {l : List α}
    (h : (l.all fun a => decide (p a)) = true) : ∀ a ∈ l, p a :=
  fun a ha => of_decide_eq_true (List.all_eq_true.mp h a ha)

/-! ## From token to token -/

/-- The tokens of a character sequence. -/
def tokensOf (cs : List Char) : List Token :=
  ((tokensFrom? 0 cs).getD []).flatMap Token.parts

theorem lex_eq_tokensOf (source : String) : lex source = tokensOf source.toList := rfl

theorem tokensFrom?_eq_drop {n : Nat} (h : n ≤ cs.length) :
    tokensFrom? n cs = tokensFrom? 0 (cs.drop n) := by
  induction cs generalizing n with
  | nil =>
    obtain rfl : n = 0 := Nat.le_zero.mp h
    rfl
  | cons c cs ih =>
    cases n with
    | zero => rfl
    | succ n => exact ih (Nat.le_of_succ_le_succ h)

/-- Behind a match of the characters `c :: w` the lexer goes on. -/
theorem tokensOf_of_token (h : token c (w ++ rest) = some (k, w.length)) :
    tokensOf (c :: (w ++ rest)) = Token.parts ⟨k, String.ofList (c :: w)⟩ ++ tokensOf rest := by
  obtain ⟨ts, hts, -⟩ := exists_tokensFrom 0 rest (Nat.zero_le _)
  have hdrop : tokensFrom? w.length (w ++ rest) = some ts := by
    rw [tokensFrom?_eq_drop (by simp), List.drop_left, hts]
  simp [tokensOf, tokensFrom?, h, hdrop, hts]

theorem parts_of_kind {t : Token} (h : t.kind ≠ .operator) : t.parts = [t] := by
  have hrun : t.isPostfixRun = false := by simp [Token.isPostfixRun, h]
  rw [Token.parts, if_neg (by simp [hrun])]

/-- A match that is no run of marks is a token. -/
theorem tokensOf_of_kind (h : token c (w ++ rest) = some (k, w.length)) (hk : k ≠ .operator) :
    tokensOf (c :: (w ++ rest)) = ⟨k, String.ofList (c :: w)⟩ :: tokensOf rest := by
  rw [tokensOf_of_token h, parts_of_kind hk, List.singleton_append]

/-- A match of one character. -/
theorem tokensOf_single (h : token c rest = some (k, 0)) (hk : k ≠ .operator) :
    tokensOf (c :: rest) = ⟨k, String.singleton c⟩ :: tokensOf rest := by
  have htext : String.ofList [c] = String.singleton c := by simp
  rw [← htext]
  exact tokensOf_of_kind (w := []) h hk

/-- The longest run of characters of a class that `w` is and `rest` does not go on with. -/
theorem takeWhile_append_stop {p : Char → Bool} (hw : ∀ d ∈ w, p d = true)
    (hrest : ∀ d ∈ rest.head?, p d = false) : (w ++ rest).takeWhile p = w := by
  rw [List.takeWhile_append_of_pos hw]
  cases rest with
  | nil => simp
  | cons d rest => rw [List.takeWhile_cons_of_neg (by simpa using hrest), List.append_nil]

/-! ## Words -/

theorem ne_of_isNameStart (h : isNameStart c = true) {d : Char} (hd : isNameStart d = false) :
    (c == d) = false := by
  rw [beq_eq_false_iff_ne]
  rintro rfl
  exact Bool.false_ne_true (hd.symm.trans h)

theorem isBlank_of_isNameStart (h : isNameStart c = true) : isBlank c = false := by
  have hne := fun d => @ne_of_isNameStart c h d
  simp only [isBlank, hne ' ' (by decide), hne '\t' (by decide), hne '\r' (by decide),
    hne '\n' (by decide), hne '\x0c' (by decide), Bool.or_false]

theorem isOperatorChar_of_isNameStart (h : isNameStart c = true) : isOperatorChar c = false := by
  have hnone : ∀ d ∈ "=-+!*%<>&|^~?".toList, isNameStart d = false :=
    forall_mem_of_all (by decide)
  rw [Bool.eq_false_iff]
  intro hop
  exact Bool.false_ne_true ((hnone c (List.contains_iff_mem.mp hop)).symm.trans h)

theorem isAlpha_iff : c.isAlpha = true ↔
    (65 ≤ c.toNat ∧ c.toNat ≤ 90) ∨ (97 ≤ c.toNat ∧ c.toNat ≤ 122) := by
  have hupper : c.isUpper = true ↔ 65 ≤ c.toNat ∧ c.toNat ≤ 90 := decide_eq_true_iff
  have hlower : c.isLower = true ↔ 97 ≤ c.toNat ∧ c.toNat ≤ 122 :=
    Bool.and_eq_true_iff.trans (and_congr decide_eq_true_iff decide_eq_true_iff)
  rw [← hupper, ← hlower]
  exact Bool.or_eq_true_iff

theorem isDigit_of_isNameStart (h : isNameStart c = true) : c.isDigit = false := by
  rw [Bool.eq_false_iff]
  intro hdigit
  simp only [Char.isDigit, Bool.and_eq_true, decide_eq_true_eq] at hdigit
  simp only [isNameStart, Bool.or_eq_true, isAlpha_iff, decide_eq_true_eq, beq_iff_eq] at h
  obtain ⟨hlow, hhigh⟩ := hdigit
  have hlow' : 48 ≤ c.toNat := hlow
  have hhigh' : c.toNat ≤ 57 := hhigh
  rcases h with ((⟨hup, -⟩ | ⟨hdown, -⟩) | rfl) | hwide
  · omega
  · omega
  · exact absurd hhigh' (by decide)
  · omega

/-- No other pattern begins like a name. -/
theorem token_name (h : isNameStart c = true) :
    token c cs =
      some (wordKind (String.ofList (c :: cs.takeWhile isNameChar)),
        (cs.takeWhile isNameChar).length) := by
  have hne := fun d => @ne_of_isNameStart c h d
  simp only [token, isBlank_of_isNameStart h, hne '/' (by decide), hne '.' (by decide),
    hne '#' (by decide), hne '"' (by decide), hne '\x60' (by decide), hne '$' (by decide),
    isDigit_of_isNameStart h, h, if_true, Bool.false_eq_true, if_false]

/-- A word is read back in front of what does not continue it. -/
theorem tokensOf_word (hc : isNameStart c = true) (hw : ∀ d ∈ w, isNameChar d = true)
    (hrest : ∀ d ∈ rest.head?, isNameChar d = false)
    (hk : wordKind (String.ofList (c :: w)) ≠ .operator) :
    tokensOf (c :: (w ++ rest)) =
      ⟨wordKind (String.ofList (c :: w)), String.ofList (c :: w)⟩ :: tokensOf rest := by
  refine tokensOf_of_kind ?_ hk
  rw [token_name hc, takeWhile_append_stop hw hrest]

/-! ### Single words

What the lexer takes for one word, be it in backticks, it finds again. -/

theorem literal_or_error_of_string {q : Quote} {opening n : Nat}
    (h : string q opening cs = some (k, n)) : k = .stringLiteral ∨ k = .error := by
  unfold string at h
  dsimp only at h
  split at h
  all_goals
    simp only [Option.bind_eq_bind, Option.bind_eq_some_iff, Option.pure_def, Option.some.injEq,
      Prod.mk.injEq] at h
    obtain ⟨-, -, rfl, -⟩ := h
    simp

theorem not_isWord_of_string {q : Quote} {opening n : Nat}
    (h : string q opening cs = some (k, n)) : k.isWord = false := by
  rcases literal_or_error_of_string h with rfl | rfl <;> rfl

theorem kinds_of_slash {n : Nat} (h : slash cs = some (k, n)) :
    k ∈ [TokenKind.lineComment, .blockComment, .operator, .error] := by
  unfold slash at h
  split at h
  · cases h
    decide
  · dsimp only at h
    split at h
    all_goals
      simp only [Option.bind_eq_bind, Option.bind_eq_some_iff, Option.pure_def, Option.some.injEq,
        Prod.mk.injEq] at h
      obtain ⟨-, -, rfl, -⟩ := h
      decide
  · cases h
    decide
  · cases h
    decide

theorem kinds_point (cs : List Char) : (point cs).1 ∈ [TokenKind.ellipsis, .operator, .dot] := by
  unfold point
  split <;> decide

theorem kinds_of_pound {n : Nat} (h : pound cs = some (k, n)) :
    k ∈ [TokenKind.stringLiteral, .error, .poundIf, .poundElseif, .poundElse, .poundEndif,
      .poundIdent] := by
  unfold pound at h
  dsimp only at h
  split at h
  · split at h <;> rcases literal_or_error_of_string h with rfl | rfl <;> decide
  · split at h
    · obtain ⟨rfl, -⟩ := Prod.mk.inj (Option.some.inj h)
      unfold directiveKind
      split <;> decide
    · cases h
      decide
  · cases h
    decide

theorem kinds_backtick (cs : List Char) : (backtick cs).1 ∈ [TokenKind.ident, .error] := by
  unfold backtick
  dsimp only
  split
  · split
    · exact .tail _ (.head _)
    · exact .head _
  · exact .tail _ (.head _)

theorem kinds_number (c : Char) (cs : List Char) :
    (number c cs).1 ∈ [TokenKind.intLiteral, .floatLiteral] := by
  unfold number
  generalize (if c == '0' then basedRun cs else 0) = based
  dsimp only
  split
  · exact .head _
  · split
    · exact .head _
    · exact .tail _ (.head _)

theorem kinds_wordKind (w : String) :
    wordKind w = .underscore ∨ (wordKind w).isWord = true := by
  unfold wordKind
  split
  · exact .inl rfl
  · cases hk : TokenKind.reserved? w with
    | none => exact .inr rfl
    | some k =>
      have hspelling := TokenKind.text?_of_spelling? (TokenKind.spelling?_of_reserved? hk)
      exact .inr (TokenKind.isWord_of_text? (Option.isSome_of_eq_some hspelling))

theorem kinds_operatorKind (w : List Char) : operatorKind w ∈
    [TokenKind.eq, .arrow, .question, .exclamation, .amp, .lt, .gt, .operator] := by
  unfold operatorKind
  split <;> decide

theorem kinds_punctuationKind (c : Char) : punctuationKind c ∈
    [TokenKind.lParen, .rParen, .lBracket, .rBracket, .lBrace, .rBrace, .comma, .colon, .semicolon,
      .atSign, .backslash, .error] := by
  unfold punctuationKind
  split <;> decide

/-- A kind with a property is none of some kinds that do not have it. -/
theorem not_mem_kinds {p : TokenKind → Bool} {ks : List TokenKind} (hk : p k = true)
    (hks : ks.any p = false) : k ∉ ks := by
  intro hmem
  exact absurd hk (List.any_eq_false.mp hks k hmem)

/-- What reads a token that begins with `c`. -/
inductive ReadBy (c : Char) (cs : List Char) (k : TokenKind) (n : Nat) : Prop where
  | blank (char : isBlank c = true) (kind : k = .whitespace)
  | slash (char : c = '/') (read : slash cs = some (k, n))
  | point (char : c = '.') (read : point cs = (k, n))
  | pound (char : c = '#') (read : pound cs = some (k, n))
  | quote {q : Quote} {opening : Nat} (char : c = '"')
      (read : string q opening (cs.drop opening) = some (k, n))
  | backtick (char : c = '\x60') (read : backtick cs = (k, n))
  | dollar (char : c = '$') (kind : k ∈ [TokenKind.error, .ident])
  | number (char : c.isDigit = true) (read : number c cs = (k, n))
  | word (char : isNameStart c = true)
      (kind : k = wordKind (String.ofList (c :: cs.takeWhile isNameChar)))
  | operator (char : isOperatorChar c = true)
      (kind : k = operatorKind (c :: cs.takeWhile isOperatorChar))
      (length : n = (cs.takeWhile isOperatorChar).length)
  | punctuation (kind : k = punctuationKind c) (length : n = 0)

/-- The rules are tried one after the other. -/
theorem readBy_of_token {n : Nat} (h : token c cs = some (k, n)) : ReadBy c cs k n := by
  rw [token] at h
  by_cases hblank : isBlank c = true
  · rw [if_pos hblank] at h
    exact .blank hblank (Prod.mk.inj (Option.some.inj h)).1.symm
  rw [if_neg hblank] at h
  by_cases hslash : (c == '/') = true
  · rw [if_pos hslash] at h
    exact .slash (eq_of_beq hslash) h
  rw [if_neg hslash] at h
  by_cases hpoint : (c == '.') = true
  · rw [if_pos hpoint] at h
    exact .point (eq_of_beq hpoint) (Option.some.inj h)
  rw [if_neg hpoint] at h
  by_cases hpound : (c == '#') = true
  · rw [if_pos hpound] at h
    exact .pound (eq_of_beq hpound) h
  rw [if_neg hpound] at h
  by_cases hquote : (c == '"') = true
  · rw [if_pos hquote] at h
    split at h
    · exact .quote (eq_of_beq hquote) h
    · exact @ReadBy.quote _ _ _ _ _ 0 (eq_of_beq hquote) h
  rw [if_neg hquote] at h
  by_cases htick : (c == '\x60') = true
  · rw [if_pos htick] at h
    exact .backtick (eq_of_beq htick) (Option.some.inj h)
  rw [if_neg htick] at h
  by_cases hdollar : (c == '$') = true
  · rw [if_pos hdollar] at h
    refine .dollar (eq_of_beq hdollar) ?_
    split at h
    all_goals
      obtain ⟨rfl, -⟩ := Prod.mk.inj (Option.some.inj h)
      decide
  rw [if_neg hdollar] at h
  by_cases hdigit : c.isDigit = true
  · rw [if_pos hdigit] at h
    exact .number hdigit (Option.some.inj h)
  rw [if_neg hdigit] at h
  by_cases hname : isNameStart c = true
  · rw [if_pos hname] at h
    exact .word hname (Prod.mk.inj (Option.some.inj h)).1.symm
  rw [if_neg hname] at h
  by_cases hoperator : isOperatorChar c = true
  · rw [if_pos hoperator] at h
    obtain ⟨hkind, hlength⟩ := Prod.mk.inj (Option.some.inj h)
    exact .operator hoperator hkind.symm hlength.symm
  · rw [if_neg hoperator] at h
    obtain ⟨hkind, hlength⟩ := Prod.mk.inj (Option.some.inj h)
    exact .punctuation hkind.symm hlength.symm

/-- Behind a `#` there is no word but that of a directive. -/
theorem isWord_of_pound {n : Nat} (h : pound cs = some (k, n)) (hk : k.isWord = true) :
    k = directiveKind (String.ofList (cs.takeWhile isWordChar)) ∧
      n = (cs.takeWhile isWordChar).length := by
  unfold pound at h
  dsimp only at h
  split at h
  · suffices hno : k.isWord = false from absurd (hno.symm.trans hk) Bool.false_ne_true
    split at h
    · exact not_isWord_of_string h
    · exact not_isWord_of_string h
  · split at h
    · obtain ⟨hkind, hlength⟩ := Prod.mk.inj (Option.some.inj h)
      exact ⟨hkind.symm, hlength.symm⟩
    · cases h
      exact absurd hk (by decide)
  · cases h
    exact absurd hk (by decide)

/-- Only names, quoted names, names behind a `$` and directives are words. -/
theorem isNameStart_of_isWord {n : Nat} (h : token c cs = some (k, n)) (hk : k.isWord = true) :
    isNameStart c = true ∨ c = '\x60' ∨ c = '$' ∨ c = '#' := by
  have hnone {ks : List TokenKind} : ks.any TokenKind.isWord = false → k ∉ ks := not_mem_kinds hk
  cases readBy_of_token h with
  | blank _ kind =>
    subst kind
    cases hk
  | slash _ read => exact absurd (kinds_of_slash read) (hnone rfl)
  | point _ read => exact absurd (congrArg Prod.fst read ▸ kinds_point cs) (hnone rfl)
  | pound char _ => exact .inr (.inr (.inr char))
  | quote _ read => exact absurd ((not_isWord_of_string read).symm.trans hk) Bool.false_ne_true
  | backtick char _ => exact .inr (.inl char)
  | dollar char _ => exact .inr (.inr (.inl char))
  | number _ read => exact absurd (congrArg Prod.fst read ▸ kinds_number c cs) (hnone rfl)
  | word char _ => exact .inl char
  | operator _ kind _ => exact absurd (kind ▸ kinds_operatorKind _) (hnone rfl)
  | punctuation kind _ => exact absurd (kind ▸ kinds_punctuationKind c) (hnone rfl)

/-- Only names, quoted names and names behind a `$` are like names. -/
theorem isNameStart_of_isNameLike {n : Nat} (h : token c cs = some (k, n))
    (hk : k.isNameLike = true) : isNameStart c = true ∨ c = '\x60' ∨ c = '$' := by
  have hword : k.isWord = true := by rw [TokenKind.isWord, hk, Bool.true_or]
  rcases isNameStart_of_isWord h hword with hname | htick | hdollar | rfl
  · exact .inl hname
  · exact .inr (.inl htick)
  · exact .inr (.inr hdollar)
  · obtain ⟨hdirective, -⟩ := isWord_of_pound h hword
    rw [hdirective] at hk
    unfold directiveKind at hk
    split at hk <;> cases hk

/-- Brackets are single characters. -/
theorem punctuation_of_token {n : Nat} (h : token c cs = some (k, n)) (hk : k.isBracket = true) :
    punctuationKind c = k ∧ n = 0 := by
  have hnone {ks : List TokenKind} : ks.any TokenKind.isBracket = false → k ∉ ks :=
    not_mem_kinds hk
  cases readBy_of_token h with
  | blank _ kind =>
    subst kind
    cases hk
  | slash _ read => exact absurd (kinds_of_slash read) (hnone rfl)
  | point _ read => exact absurd (congrArg Prod.fst read ▸ kinds_point cs) (hnone rfl)
  | pound _ read => exact absurd (kinds_of_pound read) (hnone rfl)
  | quote _ read => rcases literal_or_error_of_string read with rfl | rfl <;> cases hk
  | backtick _ read => exact absurd (congrArg Prod.fst read ▸ kinds_backtick cs) (hnone rfl)
  | dollar _ kind => exact absurd kind (hnone rfl)
  | number _ read => exact absurd (congrArg Prod.fst read ▸ kinds_number c cs) (hnone rfl)
  | word _ kind =>
    rcases kinds_wordKind (String.ofList (c :: cs.takeWhile isNameChar)) with hword | hword
    · rw [kind, hword] at hk
      cases hk
    · rw [kind, TokenKind.not_isBracket_of_isWord hword] at hk
      cases hk
  | operator _ kind _ => exact absurd (kind ▸ kinds_operatorKind _) (hnone rfl)
  | punctuation kind length => exact ⟨kind.symm, length⟩

/-- Every bracket has a kind of its own. -/
theorem eq_of_punctuationKind {d : Char} (hc : c ∈ "()[]\x7b\x7d".toList)
    (h : punctuationKind d = punctuationKind c) : d = c := by
  have hcases : c = '(' ∨ c = ')' ∨ c = '[' ∨ c = ']' ∨ c = '\x7b' ∨ c = '\x7d' := by
    simpa using hc
  unfold punctuationKind at h
  rcases hcases with rfl | rfl | rfl | rfl | rfl | rfl <;> split at h <;> first | rfl | cases h

theorem isNameChar_of_isWordChar (h : isWordChar c = true) : isNameChar c = true := by
  simp only [isWordChar, Char.isAlphanum, Bool.or_eq_true] at h
  simp only [isNameChar, isNameStart, Bool.or_eq_true]
  rcases h with (h | h) | h <;> simp [h]

/-- A quoted name ends with its second backtick. -/
theorem backtick_append (h : (backtick w).1.isNameLike = true) :
    backtick (w ++ rest) = backtick w := by
  have hsplit : w.takeWhile (fun c => c != '\x60' && !isLineEnd c) ++
      w.drop (w.takeWhile fun c => c != '\x60' && !isLineEnd c).length = w :=
    List.prefix_iff_eq_append.mp (List.takeWhile_prefix _)
  have hquoted : ∀ d ∈ w.takeWhile (fun c => c != '\x60' && !isLineEnd c),
      (d != '\x60' && !isLineEnd d) = true := fun d hd =>
    List.mem_takeWhile_imp (p := fun c => c != '\x60' && !isLineEnd c) hd
  unfold backtick at h ⊢
  dsimp only at h ⊢
  generalize w.takeWhile (fun c => c != '\x60' && !isLineEnd c) = name at *
  split at h
  · next after hafter =>
    rw [hafter] at hsplit
    rw [← hsplit, List.append_assoc, takeWhile_append_stop hquoted (by simp), List.drop_left]
    rfl
  · exact absurd h Bool.false_ne_true

theorem token_dollar (cs : List Char) : token '$' cs =
    if (cs.takeWhile isWordChar).length = 0 then some (.error, 0)
    else some (.ident, (cs.takeWhile isWordChar).length) := by
  cases hn : (cs.takeWhile isWordChar).length <;> simp [token, isBlank, hn]

/-- A word that is the whole text is also found in front of what does not continue it. -/
theorem token_append (h : token c w = some (k, w.length)) (hk : k.isNameLike = true)
    (hrest : ∀ d ∈ rest.head?, isNameChar d = false) :
    token c (w ++ rest) = some (k, w.length) := by
  rcases isNameStart_of_isNameLike h hk with hname | rfl | rfl
  · rw [token_name hname] at h ⊢
    obtain ⟨hkind, hlength⟩ := Prod.mk.inj (Option.some.inj h)
    have hall : w.takeWhile isNameChar = w := (List.takeWhile_prefix _).eq_of_length hlength
    rw [takeWhile_append_stop (List.takeWhile_eq_self_iff.mp hall) hrest, ← hkind, hall]
  · have hquoted : backtick w = (k, w.length) := Option.some.inj h
    have hlonger : backtick (w ++ rest) = backtick w :=
      backtick_append (by rw [hquoted]; exact hk)
    exact congrArg some (hlonger.trans hquoted)
  · have hword : ∀ d ∈ rest.head?, isWordChar d = false := by
      intro d hd
      rw [Bool.eq_false_iff]
      intro hd'
      exact Bool.false_ne_true ((hrest d hd).symm.trans (isNameChar_of_isWordChar hd'))
    rw [token_dollar] at h ⊢
    split at h
    · rw [← (Prod.mk.inj (Option.some.inj h)).1] at hk
      exact absurd hk (by decide)
    · next hne =>
      obtain ⟨hkind, hlength⟩ := Prod.mk.inj (Option.some.inj h)
      have hall : w.takeWhile isWordChar = w := (List.takeWhile_prefix _).eq_of_length hlength
      rw [takeWhile_append_stop (List.takeWhile_eq_self_iff.mp hall) hword,
        if_neg (by rwa [hlength] at hne), ← hkind]

/-- A token that is read alone is a single match, unless it is a mark. -/
theorem exists_token_of_lex {l : String} (h : lex l = [⟨k, l⟩])
    (hk : k ∉ [TokenKind.question, .exclamation, .gt]) :
    ∃ c w, l.toList = c :: w ∧ token c w = some (k, w.length) := by
  cases hl : l.toList with
  | nil =>
    rw [lex_eq_tokensOf, hl] at h
    exact absurd h (by simp [tokensOf, tokensFrom?])
  | cons c cs =>
    obtain ⟨k', n, htoken, hmatch⟩ := exists_match_token c cs
    have hread : Token.parts ⟨k', String.ofList (c :: cs.take n)⟩ ++ tokensOf (cs.drop n) =
        [⟨k, l⟩] := by
      rw [lex_eq_tokensOf, hl] at h
      rw [← h, ← List.take_append_drop n cs, tokensOf_of_token, List.take_append_drop]
      simp [htoken, hmatch.length_le]
    unfold Token.parts at hread
    split at hread
    · -- a run of marks begins with a mark
      rw [String.toList_ofList, List.map_cons, List.cons_append] at hread
      obtain ⟨hmark, -⟩ := List.cons.inj hread
      rw [← (Token.mk.inj hmark).1] at hk
      rcases Token.markKind_cases c with hc | hc | hc
      all_goals
        rw [hc] at hk
        exact absurd hk (by decide)
    · obtain ⟨hword, -⟩ := List.cons.inj hread
      obtain ⟨rfl, htext⟩ := Token.mk.inj hword
      have htake : cs.take n = cs := by
        rw [← htext, String.toList_ofList] at hl
        exact (List.cons.inj hl).2
      have hn : n = cs.length := by
        have hlength := congrArg List.length htake
        rw [List.length_take, Nat.min_eq_left hmatch.length_le] at hlength
        exact hlength
      exact ⟨c, cs, rfl, hn ▸ htoken⟩

/-- What a word that is read alone begins with. -/
theorem exists_cons_of_lex {l : String} (h : lex l = [⟨k, l⟩]) (hk : k.isNameLike = true) :
    ∃ c w, l.toList = c :: w ∧ (isNameStart c = true ∨ c = '\x60' ∨ c = '$') := by
  obtain ⟨c, w, hl, htoken⟩ := exists_token_of_lex h (TokenKind.not_mark_of_isNameLike hk)
  exact ⟨c, w, hl, isNameStart_of_isNameLike htoken hk⟩

/-- A word is read back in front of what does not continue it, if it is read alone. -/
theorem tokensOf_append {l : String} (h : lex l = [⟨k, l⟩]) (hk : k.isNameLike = true)
    (hrest : ∀ d ∈ rest.head?, isNameChar d = false) :
    tokensOf (l.toList ++ rest) = ⟨k, l⟩ :: tokensOf rest := by
  obtain ⟨c, w, hl, htoken⟩ := exists_token_of_lex h (TokenKind.not_mark_of_isNameLike hk)
  have hkind : k ≠ .operator := by
    rintro rfl
    exact absurd hk (by decide)
  rw [hl, List.cons_append, tokensOf_of_kind (token_append htoken hk hrest) hkind, ← hl,
    String.ofList_toList]

/-! ### Reserved words and directives -/

theorem take_length_takeWhile (p : Char → Bool) (cs : List Char) :
    cs.take (cs.takeWhile p).length = cs.takeWhile p :=
  (List.prefix_iff_eq_take.mp (List.takeWhile_prefix p)).symm

theorem wordKind_of_reserved? {l : String} (h : TokenKind.reserved? l = some k) :
    wordKind l = k := by
  have hne : (l == "_") = false := by
    rw [beq_eq_false_iff_ne]
    rintro rfl
    cases h
  rw [wordKind, hne, if_neg Bool.false_ne_true, h, Option.getD_some]

theorem isNameStart_of_reserved? {l : String} (h : TokenKind.reserved? l = some k) :
    l.toList.head?.all isNameStart = true := by
  have hspelling := TokenKind.spelling?_of_reserved? h
  cases k <;> cases hspelling
  all_goals decide

theorem eq_of_wordKind {l : String} (h : (wordKind l).text? = some text) : l = text := by
  unfold wordKind at h
  split at h
  · cases h
  · cases hk : TokenKind.reserved? l with
    | none =>
      rw [hk] at h
      cases h
    | some k =>
      rw [hk, Option.getD_some,
        TokenKind.text?_of_spelling? (TokenKind.spelling?_of_reserved? hk)] at h
      exact Option.some.inj h

theorem eq_of_directiveKind {l : String} (h : (directiveKind l).text? = some text) :
    "#" ++ l = text := by
  unfold directiveKind at h
  split at h <;> cases h <;> rfl

/-- A reserved word or directive that is found has the text of its kind. -/
theorem text_of_token {n : Nat} (h : token c cs = some (k, n)) (hw : k.text? = some text) :
    String.ofList (c :: cs.take n) = text := by
  have hword := TokenKind.isWord_of_text? (Option.isSome_of_eq_some hw)
  rcases isNameStart_of_isWord h hword with hname | rfl | rfl | rfl
  · rw [token_name hname] at h
    obtain ⟨rfl, rfl⟩ := Prod.mk.inj (Option.some.inj h)
    rw [take_length_takeWhile]
    exact eq_of_wordKind hw
  · -- a quoted name
    have hquoted : backtick cs = (k, n) := Option.some.inj h
    unfold backtick at hquoted
    dsimp only at hquoted
    repeat' split at hquoted
    all_goals
      obtain ⟨rfl, -⟩ := Prod.mk.inj hquoted
      cases hw
  · rw [token_dollar] at h
    split at h
    all_goals
      obtain ⟨rfl, -⟩ := Prod.mk.inj (Option.some.inj h)
      cases hw
  · obtain ⟨rfl, rfl⟩ := isWord_of_pound h hword
    rw [take_length_takeWhile, ← eq_of_directiveKind hw, ← String.toList_inj]
    simp

theorem exists_token_of_mem {skip : Nat} {ts : List Token} (h : tokensFrom? skip cs = some ts)
    {t : Token} (ht : t ∈ ts) :
    ∃ c rest n, token c rest = some (t.kind, n) ∧ t.text = String.ofList (c :: rest.take n) := by
  induction cs generalizing skip ts with
  | nil =>
    cases skip with
    | zero => cases h; cases ht
    | succ skip => cases h
  | cons c cs ih =>
    cases skip with
    | succ skip => exact ih h ht
    | zero =>
      obtain ⟨⟨k, n⟩, htoken, h⟩ := Option.bind_eq_some_iff.mp h
      obtain ⟨us, hus, h⟩ := Option.bind_eq_some_iff.mp h
      cases h
      rcases List.mem_cons.mp ht with rfl | ht
      · exact ⟨c, cs, n, htoken, rfl⟩
      · exact ih hus ht

/-! ## Operators -/

theorem token_operator (h : isOperatorChar c = true) :
    token c cs =
      some (operatorKind (c :: cs.takeWhile isOperatorChar),
        (cs.takeWhile isOperatorChar).length) := by
  have hmem : c ∈ "=-+!*%<>&|^~?".toList := List.contains_iff_mem.mp h
  have hother : ∀ d ∈ "=-+!*%<>&|^~?".toList, isBlank d = false ∧ (d == '/') = false ∧
      (d == '.') = false ∧ (d == '#') = false ∧ (d == '"') = false ∧ (d == '\x60') = false ∧
      (d == '$') = false ∧ d.isDigit = false ∧ isNameStart d = false :=
    forall_mem_of_all (by decide)
  obtain ⟨hblank, hslash, hpoint, hpound, hquote, htick, hdollar, hdigit, hname⟩ := hother c hmem
  simp only [token, hblank, hslash, hpoint, hpound, hquote, htick, hdollar, hdigit, hname, h,
    if_true, Bool.false_eq_true, if_false]

/-- An operator is read back in front of what does not continue it. -/
theorem tokensOf_operator (hc : isOperatorChar c = true) (hw : ∀ d ∈ w, isOperatorChar d = true)
    (hrest : ∀ d ∈ rest.head?, isOperatorChar d = false) (hk : operatorKind (c :: w) ≠ .operator) :
    tokensOf (c :: (w ++ rest)) = ⟨operatorKind (c :: w), String.ofList (c :: w)⟩ :: tokensOf rest := by
  refine tokensOf_of_kind ?_ hk
  rw [token_operator hc, takeWhile_append_stop hw hrest]

/-! ### Marks -/

/-- The operator characters that come next are all marks. -/
def MarksNext (cs : List Char) : Prop := ∀ d ∈ cs.takeWhile isOperatorChar, Token.isMark d = true

/-- A mark as a token. -/
def mark (c : Char) : Token := ⟨Token.markKind c, String.singleton c⟩

theorem isOperatorChar_of_isMark (h : Token.isMark c = true) : isOperatorChar c = true := by
  simp only [Token.isMark, Bool.or_eq_true, beq_iff_eq] at h
  rcases h with (rfl | rfl) | rfl <;> decide

theorem MarksNext.of_head (h : ∀ d ∈ cs.head?, isOperatorChar d = false) : MarksNext cs := by
  intro d hd
  cases cs with
  | nil => exact absurd hd List.not_mem_nil
  | cons e cs =>
    rw [List.takeWhile_cons_of_neg (by simpa using h)] at hd
    exact absurd hd List.not_mem_nil

theorem MarksNext.cons (hc : Token.isMark c = true) (h : MarksNext cs) : MarksNext (c :: cs) := by
  intro d hd
  rw [List.takeWhile_cons_of_pos (isOperatorChar_of_isMark hc)] at hd
  rcases List.mem_cons.mp hd with rfl | hd
  · exact hc
  · exact h d hd

theorem operatorKind_of_marks {d : Char} (hc : Token.isMark c = true) :
    operatorKind (c :: d :: w) = .operator := by
  have hne : c ≠ '-' := by
    rintro rfl
    exact absurd hc (by decide)
  unfold operatorKind
  split <;> simp_all

/-- A run of marks is read back mark by mark. -/
theorem tokensOf_marks (hw : ∀ d ∈ w, Token.isMark d = true)
    (hrest : ∀ d ∈ rest.head?, isOperatorChar d = false) :
    tokensOf (w ++ rest) = w.map mark ++ tokensOf rest := by
  cases w with
  | nil => rfl
  | cons c w =>
    have hc := hw c List.mem_cons_self
    have hop : ∀ d ∈ w, isOperatorChar d = true := fun d hd =>
      isOperatorChar_of_isMark (hw d (List.mem_cons_of_mem c hd))
    have htoken : token c (w ++ rest) = some (operatorKind (c :: w), w.length) := by
      rw [token_operator (isOperatorChar_of_isMark hc), takeWhile_append_stop hop hrest]
    rw [List.cons_append, tokensOf_of_token htoken]
    refine congrArg (· ++ tokensOf rest) ?_
    cases w with
    | nil =>
      simp only [Token.isMark, Bool.or_eq_true, beq_iff_eq] at hc
      rcases hc with (rfl | rfl) | rfl <;> rfl
    | cons d w =>
      rw [operatorKind_of_marks hc, Token.parts, if_pos ?_]
      · simp only [String.toList_ofList]
        rfl
      · have hmarks : (c :: d :: w).all Token.isMark = true := List.all_eq_true.mpr hw
        simp only [Token.isPostfixRun, String.length_ofList, String.toList_ofList, hmarks]
        simp

/-- A mark is read back in front of other marks. -/
theorem tokensOf_mark (hc : Token.isMark c = true) (h : MarksNext rest) :
    tokensOf (c :: rest) = mark c :: tokensOf rest := by
  have hsplit : rest.takeWhile isOperatorChar ++ rest.dropWhile isOperatorChar = rest :=
    List.takeWhile_append_dropWhile
  have hstop : ∀ d ∈ (rest.dropWhile isOperatorChar).head?, isOperatorChar d = false := by
    intro d hd
    cases hdrop : rest.dropWhile isOperatorChar with
    | nil => simp [hdrop] at hd
    | cons e es =>
      have he := List.head_dropWhile_not (p := isOperatorChar) (l := rest) (by simp [hdrop])
      simp only [hdrop, List.head_cons, List.head?_cons, Option.mem_def, Option.some.injEq] at he hd
      rw [← hd]
      exact he
  have hrest := tokensOf_marks h hstop
  have hall := tokensOf_marks (w := c :: rest.takeWhile isOperatorChar)
    (List.forall_mem_cons.mpr ⟨hc, h⟩) hstop
  rw [hsplit] at hrest
  rw [List.cons_append, hsplit, List.map_cons, List.cons_append, ← hrest] at hall
  exact hall

/-! ## Blanks, brackets and points -/

/-- A blank character is read back in front of what is not blank. -/
theorem tokensOf_blankChar (hc : isBlank c = true) (h : ∀ d ∈ rest.head?, isBlank d = false) :
    tokensOf (c :: rest) = ⟨.whitespace, String.singleton c⟩ :: tokensOf rest := by
  have htake : rest.takeWhile isBlank = [] :=
    takeWhile_append_stop (w := []) (by simp) h
  have htoken : token c rest = some (.whitespace, 0) := by
    rw [token, if_pos hc, htake]
    rfl
  exact tokensOf_single htoken (by decide)

theorem tokensOf_blank (h : ∀ d ∈ rest.head?, isBlank d = false) :
    tokensOf (' ' :: rest) = ⟨.whitespace, " "⟩ :: tokensOf rest :=
  tokensOf_blankChar (by decide) h

/-- Brackets, commas, colons and `@` are read back in front of everything. -/
theorem tokensOf_punctuation (h : c ∈ "()[]\x7b\x7d,:@".toList) :
    tokensOf (c :: rest) = ⟨punctuationKind c, String.singleton c⟩ :: tokensOf rest := by
  have hother : ∀ d ∈ "()[]\x7b\x7d,:@".toList, isBlank d = false ∧ (d == '/') = false ∧
      (d == '.') = false ∧ (d == '#') = false ∧ (d == '"') = false ∧ (d == '\x60') = false ∧
      (d == '$') = false ∧ d.isDigit = false ∧ isNameStart d = false ∧ isOperatorChar d = false :=
    forall_mem_of_all (by decide)
  have hkind : ∀ d ∈ "()[]\x7b\x7d,:@".toList, punctuationKind d ≠ .operator :=
    forall_mem_of_all (by decide)
  obtain ⟨hblank, hslash, hpoint, hpound, hquote, htick, hdollar, hdigit, hname, hop⟩ :=
    hother c h
  have htoken : token c rest = some (punctuationKind c, 0) := by
    simp only [token, hblank, hslash, hpoint, hpound, hquote, htick, hdollar, hdigit, hname, hop,
      Bool.false_eq_true, if_false]
  exact tokensOf_single htoken (hkind c h)

theorem tokensOf_braces :
    tokensOf "\x7b\x7d".toList = [⟨.lBrace, "\x7b"⟩, ⟨.rBrace, "\x7d"⟩] :=
  (tokensOf_punctuation (by decide)).trans (congrArg _ (@tokensOf_punctuation _ [] (by decide)))

/-- Dots are read back in front of everything. -/
theorem tokensOf_ellipsis :
    tokensOf ('.' :: '.' :: '.' :: rest) = ⟨.ellipsis, "..."⟩ :: tokensOf rest := by
  have htoken : token '.' (['.', '.'] ++ rest) = some (.ellipsis, 2) := rfl
  exact tokensOf_of_kind (w := ['.', '.']) htoken (by decide)

/-! ## Texts of one token -/

/-- Whether a text is written with the characters of a name and begins as a name does. -/
def isWordText (w : String) : Bool :=
  w.toList.head?.any isNameStart && w.toList.tail.all isNameChar

/-- Whether a text is written with operator characters. -/
def isOperatorText (w : String) : Bool := !w.toList.isEmpty && w.toList.all isOperatorChar

theorem lex_of_tokensOf {w : String} (hw : w.toList = cs)
    (h : tokensOf cs = ⟨k, String.ofList cs⟩ :: tokensOf []) : lex w = [⟨k, w⟩] := by
  rw [lex_eq_tokensOf, hw, h, ← hw, String.ofList_toList]
  rfl

/-- A word is one token: a reserved word, `_` or a name. -/
theorem lex_word {w : String} (h : isWordText w = true) (hk : wordKind w = k)
    (hop : k ≠ .operator) : lex w = [⟨k, w⟩] := by
  cases hw : w.toList with
  | nil => simp [isWordText, hw] at h
  | cons c cs =>
    have hchars : isNameStart c = true ∧ ∀ d ∈ cs, isNameChar d = true := by
      simpa [isWordText, hw] using h
    have htext : String.ofList (c :: cs) = w := by rw [← hw, String.ofList_toList]
    have htokens := @tokensOf_word c cs [] hchars.1 hchars.2 (by simp) (by rwa [htext, hk])
    rw [List.append_nil, htext, hk] at htokens
    exact lex_of_tokensOf hw (by rw [htokens, htext])

/-- Operator characters are one token. -/
theorem lex_operator {w : String} (h : isOperatorText w = true) (hk : operatorKind w.toList = k)
    (hop : k ≠ .operator) : lex w = [⟨k, w⟩] := by
  cases hw : w.toList with
  | nil => simp [isOperatorText, hw] at h
  | cons c cs =>
    have hchars : isOperatorChar c = true ∧ ∀ d ∈ cs, isOperatorChar d = true := by
      simpa [isOperatorText, hw] using h
    rw [hw] at hk
    have htokens := @tokensOf_operator c cs [] hchars.1 hchars.2 (by simp) (by rwa [hk])
    rw [List.append_nil, hk] at htokens
    exact lex_of_tokensOf hw htokens

end Lexer

theorem exists_token_of_mem_lex {source : String} {t : Token} (h : t ∈ lex source) :
    (∃ c, Token.isMark c = true ∧ t = ⟨Token.markKind c, String.singleton c⟩) ∨
      ∃ c rest n, Lexer.token c rest = some (t.kind, n) ∧
        t.text = String.ofList (c :: rest.take n) := by
  obtain ⟨u, hu, ht⟩ := List.mem_flatMap.mp h
  unfold Token.parts at ht
  split at ht
  · next hrun =>
    obtain ⟨c, hc, rfl⟩ := List.mem_map.mp ht
    simp only [Token.isPostfixRun, Bool.and_eq_true, List.all_eq_true] at hrun
    exact .inl ⟨c, hrun.2 c hc, rfl⟩
  · obtain rfl := List.mem_singleton.mp ht
    exact .inr (Lexer.exists_token_of_mem (exists_longestMatches source).1 hu)

/-- All tokens of a text that are reserved words or directives have the text of their kind. -/
theorem text_of_mem_lex {source w : String} {t : Token} (h : t ∈ lex source)
    (hw : t.kind.text? = some w) : t.text = w := by
  rcases exists_token_of_mem_lex h with ⟨c, -, rfl⟩ | ⟨c, rest, n, htoken, htext⟩
  · dsimp only at hw
    rcases Token.markKind_cases c with hc | hc | hc
    all_goals
      rw [hc] at hw
      cases hw
  · exact htext.trans (Lexer.text_of_token htoken hw)

/-- All tokens of a text that are brackets are the character of their kind. -/
theorem text_of_bracket {source : String} {t : Token} {c : Char} (h : t ∈ lex source)
    (hc : c ∈ "()[]\x7b\x7d".toList) (hk : t.kind = Lexer.punctuationKind c) :
    t.text = String.singleton c := by
  have hbracket : (Lexer.punctuationKind c).isBracket = true :=
    Lexer.forall_mem_of_all (p := fun c => (Lexer.punctuationKind c).isBracket = true)
      (by decide) c hc
  rcases exists_token_of_mem_lex h with ⟨d, -, rfl⟩ | ⟨d, rest, n, htoken, htext⟩
  · rw [← hk] at hbracket
    dsimp only at hbracket
    rcases Token.markKind_cases d with hd | hd | hd <;> rw [hd] at hbracket <;> cases hbracket
  · obtain ⟨hkind, rfl⟩ := Lexer.punctuation_of_token htoken (hk ▸ hbracket)
    rw [htext, Lexer.eq_of_punctuationKind hc (hkind.trans hk)]
    rfl

/-- No name of a text is a reserved word. -/
theorem reserved?_of_ident {source : String} {t : Token} (h : t ∈ lex source)
    (hk : t.kind = .ident) : TokenKind.reserved? t.text = none := by
  rcases exists_token_of_mem_lex h with ⟨c, -, rfl⟩ | ⟨c, rest, n, htoken, htext⟩
  · dsimp only at hk
    rcases Token.markKind_cases c with hc | hc | hc
    all_goals
      rw [hc] at hk
      cases hk
  · cases hword : TokenKind.reserved? t.text with
    | none => rfl
    | some k =>
      have hname : Lexer.isNameStart c = true := by
        have hfirst := Lexer.isNameStart_of_reserved? hword
        rwa [htext, String.toList_ofList] at hfirst
      rw [Lexer.token_name hname, hk] at htoken
      obtain ⟨hkind, rfl⟩ := Prod.mk.inj (Option.some.inj htoken)
      rw [Lexer.take_length_takeWhile] at htext
      rw [← htext, Lexer.wordKind_of_reserved? hword] at hkind
      have hspelling := TokenKind.spelling?_of_reserved? hword
      rw [hkind] at hspelling
      cases hspelling

end SwiftOutline
