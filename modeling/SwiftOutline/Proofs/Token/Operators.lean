/-
  SwiftOutline.Proofs.Token.Operators

  The characters of operators. A token that an operator is made of holds operator
  characters, slashes and points only; the names of operators allow all of these
  but the points.
-/
import SwiftOutline.Outline.Operator
import SwiftOutline.Proofs.Token.Spelling

namespace SwiftOutline

namespace TokenKind

/-- Whether tokens of a kind go on with an operator: operators and points. -/
def extendsOperator (k : TokenKind) : Bool := k.isOperatorLike || k == .dot

theorem extendsOperator_of_isWord {k : TokenKind} (h : k.isWord = true) :
    k.extendsOperator = false := by
  cases k <;> first | rfl | exact absurd h (by decide)

end TokenKind

namespace Lexer

variable {k : TokenKind} {c d : Char} {cs : List Char} {n : Nat}

/-- Characters that tokens of operators hold. -/
def isOperatorPart (c : Char) : Bool := isOperatorChar c || c == '/' || c == '.'

theorem isOperatorPart_of_slash (h : slash cs = some (k, n)) (hk : k.extendsOperator = true) :
    ∀ d ∈ cs.take n, isOperatorPart d = true := by
  unfold slash at h
  split at h
  · obtain ⟨rfl, -⟩ := Prod.mk.inj (Option.some.inj h)
    cases hk
  · dsimp only at h
    split at h
    all_goals
      simp only [Option.bind_eq_bind, Option.bind_eq_some_iff, Option.pure_def, Option.some.injEq,
        Prod.mk.injEq] at h
      obtain ⟨-, -, rfl, -⟩ := h
      cases hk
  · obtain ⟨-, rfl⟩ := Prod.mk.inj (Option.some.inj h)
    exact fun d hd => List.mem_singleton.mp hd ▸ rfl
  · obtain ⟨-, rfl⟩ := Prod.mk.inj (Option.some.inj h)
    exact nofun

theorem isOperatorPart_of_point (h : point cs = (k, n)) :
    ∀ d ∈ cs.take n, isOperatorPart d = true := by
  unfold point at h
  split at h
  · obtain ⟨-, rfl⟩ := Prod.mk.inj h
    exact List.forall_mem_cons.mpr ⟨rfl, List.forall_mem_singleton.mpr rfl⟩
  · obtain ⟨-, rfl⟩ := Prod.mk.inj h
    exact List.forall_mem_cons.mpr ⟨rfl, List.forall_mem_singleton.mpr rfl⟩
  · obtain ⟨-, rfl⟩ := Prod.mk.inj h
    exact nofun

/-- What a token of an operator is made of. -/
theorem isOperatorPart_of_token (h : token c cs = some (k, n)) (hk : k.extendsOperator = true) :
    ∀ d ∈ c :: cs.take n, isOperatorPart d = true := by
  have hnone {ks : List TokenKind} : ks.any TokenKind.extendsOperator = false → k ∉ ks :=
    not_mem_kinds hk
  cases readBy_of_token h with
  | blank _ kind =>
    subst kind
    cases hk
  | slash char read =>
    exact List.forall_mem_cons.mpr ⟨char ▸ rfl, isOperatorPart_of_slash read hk⟩
  | point char read =>
    exact List.forall_mem_cons.mpr ⟨char ▸ rfl, isOperatorPart_of_point read⟩
  | pound _ read => exact absurd (kinds_of_pound read) (hnone rfl)
  | quote _ read => rcases literal_or_error_of_string read with rfl | rfl <;> cases hk
  | backtick _ read => exact absurd (congrArg Prod.fst read ▸ kinds_backtick cs) (hnone rfl)
  | dollar _ kind => exact absurd kind (hnone rfl)
  | number _ read => exact absurd (congrArg Prod.fst read ▸ kinds_number c cs) (hnone rfl)
  | word _ kind =>
    rcases kinds_wordKind (String.ofList (c :: cs.takeWhile isNameChar)) with hword | hword
    · rw [kind, hword] at hk
      cases hk
    · rw [kind, TokenKind.extendsOperator_of_isWord hword] at hk
      cases hk
  | operator char _ length =>
    rw [length, take_length_takeWhile]
    refine List.forall_mem_cons.mpr ⟨by simp [isOperatorPart, char], fun d hd => ?_⟩
    have hrun : isOperatorChar d = true :=
      List.all_eq_true.mp (List.all_takeWhile (l := cs)) d hd
    simp [isOperatorPart, hrun]
  | punctuation kind _ => exact absurd (kind ▸ kinds_punctuationKind c) (hnone rfl)

/-- They are not trimmed. -/
theorem isBlank_of_isOperatorPart {d : Char} (h : isOperatorPart d = true) :
    Text.isBlank d = false := by
  have hmem : d ∈ "=-+!*%<>&|^~?/.".toList := by
    simpa [isOperatorPart, isOperatorChar, or_assoc] using h
  have hall : ∀ d ∈ "=-+!*%<>&|^~?/.".toList, Text.isBlank d = false :=
    forall_mem_of_all (by decide)
  exact hall d hmem

end Lexer

/-- Tokens of a text that operators are made of hold the characters of operators. -/
theorem isOperatorPart_of_mem_lex {source : String} {t : Token} (h : t ∈ lex source)
    (hk : t.kind.extendsOperator = true) : ∀ d ∈ t.text.toList, Lexer.isOperatorPart d = true := by
  rcases exists_token_of_mem_lex h with ⟨c, hc, rfl⟩ | ⟨c, rest, n, htoken, htext⟩
  · intro d hd
    simp only [String.toList_singleton, List.mem_singleton] at hd
    rw [hd, Lexer.isOperatorPart, Lexer.isOperatorChar_of_isMark hc]
    rfl
  · rw [htext, String.toList_ofList]
    exact Lexer.isOperatorPart_of_token htoken hk

/-- Of the characters of operators only the point cannot stand in their names. -/
theorem OperatorName.isHead_of_isOperatorPart {d : Char} (h : Lexer.isOperatorPart d = true)
    (hd : d ≠ '.') : isHead d = true := by
  have hmem : d ∈ "/=-+!*%<>&|^~?".toList := by
    simp only [Lexer.isOperatorPart, Lexer.isOperatorChar, Bool.or_eq_true, beq_iff_eq,
      List.contains_iff_mem] at h
    rcases h with (h | h) | h
    · exact List.mem_cons_of_mem _ h
    · exact h ▸ List.mem_cons_self
    · exact absurd h hd
  rw [isHead, List.contains_iff_mem.mpr hmem, Bool.true_or]

/-- A text of such characters is the name of an operator if and only if it is not empty and has no
    point. -/
theorem OperatorName.isValid_iff {s : String} (hne : s ≠ "")
    (h : ∀ d ∈ s.toList, Lexer.isOperatorPart d = true) : isValid s = true ↔ '.' ∉ s.toList := by
  have hpoint : isHead '.' = false ∧ isCharacter '.' = false := by decide
  cases hs : s.toList with
  | nil => exact absurd (String.toList_eq_nil_iff.mp hs) hne
  | cons c cs =>
    rw [isValid, hs]
    simp only [Bool.and_eq_true, List.all_eq_true]
    constructor
    · rintro ⟨hc, hcs⟩ hmem
      rcases List.mem_cons.mp hmem with rfl | hmem
      · exact absurd (hpoint.1.symm.trans hc) Bool.false_ne_true
      · exact absurd (hpoint.2.symm.trans (hcs _ hmem)) Bool.false_ne_true
    · intro hmem
      have hhead (d : Char) (hd : d ∈ c :: cs) : isHead d = true :=
        isHead_of_isOperatorPart (h d (hs ▸ hd)) fun hdot => hmem (hdot ▸ hd)
      refine ⟨hhead c List.mem_cons_self, fun d hd => ?_⟩
      rw [isCharacter, hhead d (List.mem_cons_of_mem c hd), Bool.true_or]

end SwiftOutline
