/-
  SwiftOutline.Proofs.Token.Joining

  Two texts one behind the other. The tokens of both are those of the first and
  then those of the second, if the first has no error among its tokens and does not
  end in one that would go on, and the second begins with a character that belongs
  to no name, operator, literal or comment.
-/
import SwiftOutline.Proofs.Token.Locality

namespace SwiftOutline

open Utf8

/-- A comment that ends ends there whatever is added. -/
theorem Comment.rest?_append {depth : Nat} {bs after : List UInt8} (h : rest? depth bs = some after)
    (ds : List UInt8) : rest? depth (bs ++ ds) = some (after ++ ds) := by
  induction depth, bs using rest?.induct with
  | case1 depth a b bs hopen ih =>
    unfold rest? at h
    rw [if_pos hopen] at h
    exact (if_pos hopen).trans (ih h)
  | case2 a b bs hopen hclose =>
    unfold rest? at h
    rw [if_neg hopen, if_pos hclose] at h
    obtain rfl := Option.some.inj h
    exact (if_neg hopen).trans (if_pos hclose)
  | case3 a b bs hopen hclose depth ih =>
    unfold rest? at h
    rw [if_neg hopen, if_pos hclose] at h
    exact (if_neg hopen).trans ((if_pos hclose).trans (ih h))
  | case4 depth a b bs hopen hclose ih =>
    unfold rest? at h
    rw [if_neg hopen, if_neg hclose] at h
    exact (if_neg hopen).trans ((if_neg hclose).trans (ih h))
  | case5 depth bs hshort =>
    rw [rest?] at h
    · cases h
    · exact hshort

/-! ## Counting characters in front of a cut -/

namespace Utf8

variable {cs ds : List Char} {bytes n : Nat}

theorem length_le_encode (cs : List Char) : cs.length ≤ (encode cs).length := by
  induction cs with
  | nil => exact Nat.le_refl _
  | cons c cs ih =>
    have hsize := c.utf8Size_pos
    rw [encode_cons, List.length_append, String.length_utf8EncodeChar, List.length_cons]
    omega

theorem length_le_of_charsIn? (h : charsIn? bytes cs = some n) : n ≤ cs.length := by
  induction cs generalizing bytes n with
  | nil =>
    cases bytes with
    | zero =>
      obtain rfl := Option.some.inj h
      exact Nat.le_refl _
    | succ bytes => cases h
  | cons c cs ih =>
    cases bytes with
    | zero =>
      obtain rfl := Option.some.inj h
      exact Nat.zero_le _
    | succ bytes =>
      rw [charsIn?] at h
      split at h
      · obtain ⟨m, hm, rfl⟩ := Option.map_eq_some_iff.mp h
        exact Nat.succ_le_succ (ih hm)
      · cases h

/-- No more bytes than a text has are no more characters than it has, whatever is added. -/
theorem le_of_charsIn?_append (h : charsIn? bytes (cs ++ ds) = some n)
    (hbytes : bytes ≤ (encode cs).length) : n ≤ cs.length := by
  have hn := length_le_of_charsIn? h
  have htaken := length_encode_take h
  have hmore := length_le_encode (ds.take (n - cs.length))
  rw [List.take_append, encode_append, List.length_append] at htaken
  rw [List.length_append] at hn
  rw [List.length_take] at hmore
  rcases Nat.le_or_ge n cs.length with hle | hge
  · exact hle
  · rw [List.take_of_length_le hge] at htaken
    omega

end Utf8

/-! ## Matches in front of a separator -/

namespace Lexer

variable {c : Char} {cs ds : List Char} {k : TokenKind} {n : Nat} {p : Char → Bool}

/-- A text that continues nothing but blanks and comments in front of it: it begins with no
    character of a name, of an operator or of a delimiter, and points are at least two. -/
structure Separates (ds : List Char) : Prop where
  name : ∀ d ∈ ds.head?, isNameChar d = false
  operator : ∀ d ∈ ds.head?, isOperatorChar d = false
  delimiter : ∀ d ∈ ds.head?, d ≠ '"' ∧ d ≠ '#' ∧ d ≠ '/'
  point : ∀ es, ds = '.' :: es → es.head? = some '.'

namespace Separates

theorem nil : Separates [] := ⟨by simp, by simp, by simp, by simp⟩

/-- A single character decides, if it is no point. -/
theorem cons {d : Char} (hname : isNameChar d = false) (hop : isOperatorChar d = false)
    (hdelimiter : d ≠ '"' ∧ d ≠ '#' ∧ d ≠ '/') (hpoint : d ≠ '.') (ds : List Char) :
    Separates (d :: ds) :=
  ⟨by simpa using hname, by simpa using hop, by simpa using hdelimiter,
    fun _ h => absurd (List.cons.inj h).1 hpoint⟩

theorem dots (ds : List Char) : Separates ('.' :: '.' :: ds) := by
  refine ⟨by simp; decide, by simp; decide, by simp, fun es h => ?_⟩
  rw [← (List.cons.inj h).2]
  rfl

end Separates

theorem isNameChar_of_isDigit {d : Char} (h : d.isDigit = true) : isNameChar d = true := by
  rw [isNameChar, h, Bool.or_true]

theorem isNameChar_of_isOctalDigit {d : Char} (h : isOctalDigit d = true) :
    isNameChar d = true := by
  simp only [isOctalDigit, Bool.and_eq_true, decide_eq_true_eq] at h
  have hdigit : d.isDigit = true := by
    simp only [Char.isDigit, Bool.and_eq_true, decide_eq_true_eq]
    exact ⟨h.1, Nat.le_trans h.2 (by decide)⟩
  exact isNameChar_of_isDigit hdigit

theorem isNameChar_of_isBinaryDigit {d : Char} (h : isBinaryDigit d = true) :
    isNameChar d = true := by
  simp only [isBinaryDigit, Bool.or_eq_true, beq_iff_eq] at h
  rcases h with rfl | rfl <;> decide

theorem isNameChar_of_isHexDigit {d : Char} (h : isHexDigit d = true) : isNameChar d = true := by
  simp only [isHexDigit, Bool.or_eq_true, Bool.and_eq_true, decide_eq_true_eq] at h
  have halpha : d.isAlpha = true → isNameChar d = true := fun hd => by
    simp [isNameChar, isNameStart, hd]
  rcases h with (h | ⟨hlow, hhigh⟩) | ⟨hlow, hhigh⟩
  · exact isNameChar_of_isDigit h
  · have hlow : 97 ≤ d.toNat := hlow
    have hhigh : d.toNat ≤ 102 := hhigh
    exact halpha (isAlpha_iff.mpr (.inr ⟨hlow, by omega⟩))
  · have hlow : 65 ≤ d.toNat := hlow
    have hhigh : d.toNat ≤ 70 := hhigh
    exact halpha (isAlpha_iff.mpr (.inl ⟨hlow, by omega⟩))

variable (cs) in
/-- A run of characters of a class ends in front of what begins with none of them. -/
theorem length_takeWhile_append_le (hp : ∀ d ∈ ds.head?, p d = false) :
    ((cs ++ ds).takeWhile p).length ≤ cs.length := by
  have hstop : ds.takeWhile p = [] := by
    cases ds with
    | nil => rfl
    | cons d ds => rw [List.takeWhile_cons_of_neg (by rw [hp d rfl]; decide)]
  rw [List.takeWhile_append]
  split
  · rw [hstop, List.append_nil]
  · exact (List.takeWhile_sublist _).length_le

section Separated

variable (hds : Separates ds)

include hds

theorem Separates.of_class (hp : ∀ d, p d = true → isNameChar d = true) :
    ∀ d ∈ ds.head?, p d = false := fun d hd =>
  Bool.eq_false_iff.mpr fun h => Bool.false_ne_true ((hds.name d hd).symm.trans (hp d h))

variable (cs) in
theorem digitRun_append_le (hp : ∀ d, p d = true → isNameChar d = true) :
    digitRun p (cs ++ ds) ≤ cs.length := by
  cases cs with
  | nil =>
    cases ds with
    | nil => exact Nat.le_refl _
    | cons d ds =>
      rw [List.nil_append, digitRun, if_neg (by simp [hds.of_class hp d rfl])]
      exact Nat.le_refl _
  | cons c cs =>
    rw [List.cons_append, digitRun, List.length_cons]
    split
    · have hclass : ∀ d, (p d || d == '_') = true → isNameChar d = true := by
        intro d hd
        rcases Bool.or_eq_true_iff.mp hd with hd | hd
        · exact hp d hd
        · rw [eq_of_beq hd]
          decide
      have hrun := length_takeWhile_append_le cs (hds.of_class hclass)
      omega
    · exact Nat.zero_le _

variable (cs) in
theorem exponentRun_append_le : exponentRun (cs ++ ds) ≤ cs.length := by
  cases cs with
  | nil =>
    cases ds with
    | nil => exact Nat.le_refl _
    | cons d ds =>
      have hne : (d == 'e' || d == 'E') = false := by
        refine hds.of_class (p := fun d => d == 'e' || d == 'E') (fun d hd => ?_) d rfl
        rcases Bool.or_eq_true_iff.mp hd with hd | hd
        all_goals
          rw [eq_of_beq hd]
          decide
      rw [List.nil_append, exponentRun, hne]
      exact Nat.le_refl _
  | cons e cs =>
    rw [List.cons_append, exponentRun, List.length_cons]
    split
    · have hsign : signRun (cs ++ ds) = signRun cs ∧ signRun cs ≤ cs.length := by
        cases cs with
        | nil =>
          refine ⟨?_, Nat.le_refl _⟩
          cases ds with
          | nil => rfl
          | cons d ds =>
            have hop := hds.operator d rfl
            rw [List.nil_append, signRun, signRun, if_neg]
            intro hd
            rcases Bool.or_eq_true_iff.mp hd with hd | hd
            all_goals
              rw [eq_of_beq hd] at hop
              exact absurd hop (by decide)
        | cons s cs =>
          refine ⟨rfl, ?_⟩
          rw [signRun, List.length_cons]
          split <;> omega
      have hdigits := digitRun_append_le (cs.drop (signRun cs)) (p := Char.isDigit) hds
        (fun _ => isNameChar_of_isDigit)
      rw [hsign.1, List.drop_append_of_le_length hsign.2]
      rw [List.length_drop] at hdigits
      split <;> omega
    · exact Nat.zero_le _

variable (cs) in
theorem fractionRun_append_le : fractionRun (cs ++ ds) ≤ cs.length := by
  cases cs with
  | nil =>
    unfold fractionRun
    split
    · next es hcons =>
      -- two points are no fraction
      have hpoint := hds.point es hcons
      cases es with
      | nil => cases hpoint
      | cons e es =>
        obtain rfl : e = '.' := Option.some.inj hpoint
        exact Nat.le_refl _
    · exact Nat.le_refl _
  | cons c cs =>
    have hdigits := digitRun_append_le cs (p := Char.isDigit) hds (fun _ => isNameChar_of_isDigit)
    rw [List.cons_append, List.length_cons]
    by_cases hpoint : c = '.'
    · subst hpoint
      rw [fractionRun]
      split <;> omega
    · unfold fractionRun
      split
      · next hcons => exact absurd (List.cons.inj hcons).1 hpoint
      · exact Nat.zero_le _

theorem basedRun_append_le : basedRun (cs ++ ds) ≤ cs.length := by
  cases cs with
  | nil =>
    cases ds with
    | nil => exact Nat.le_refl _
    | cons d ds =>
      have hname := hds.name d rfl
      have hmark : ∀ mark, isNameChar mark = true → (d == mark) = false := by
        intro mark hmark
        rw [beq_eq_false_iff_ne]
        rintro rfl
        exact Bool.false_ne_true (hname.symm.trans hmark)
      rw [List.nil_append, basedRun, hmark 'x' (by decide), hmark 'o' (by decide),
        hmark 'b' (by decide)]
      exact Nat.le_refl _
  | cons mark cs =>
    have hhex := digitRun_append_le cs (p := isHexDigit) hds (fun _ => isNameChar_of_isHexDigit)
    have hoctal := digitRun_append_le cs (p := isOctalDigit) hds (fun _ => isNameChar_of_isOctalDigit)
    have hbinary := digitRun_append_le cs (p := isBinaryDigit) hds (fun _ => isNameChar_of_isBinaryDigit)
    have hdigits : (if mark == 'x' then digitRun isHexDigit (cs ++ ds)
        else if mark == 'o' then digitRun isOctalDigit (cs ++ ds)
        else if mark == 'b' then digitRun isBinaryDigit (cs ++ ds)
        else 0) ≤ cs.length := by
      repeat' split
      all_goals omega
    rw [List.cons_append, basedRun, List.length_cons]
    split <;> omega

theorem number_append_le : (number c (cs ++ ds)).2 ≤ cs.length := by
  have hbased : (if c == '0' then basedRun (cs ++ ds) else 0) ≤ cs.length := by
    split
    · exact basedRun_append_le hds
    · exact Nat.zero_le _
  have hwhole := length_takeWhile_append_le cs (p := fun d => d.isDigit || d == '_')
    (hds.of_class fun d hd => by
      rcases Bool.or_eq_true_iff.mp hd with hd | hd
      · exact isNameChar_of_isDigit hd
      · rw [eq_of_beq hd]
        decide)
  unfold number
  generalize (if c == '0' then basedRun (cs ++ ds) else 0) = based at hbased ⊢
  generalize ((cs ++ ds).takeWhile fun d => d.isDigit || d == '_').length = whole at hwhole ⊢
  dsimp only
  have hfraction := fractionRun_append_le (cs.drop whole) hds
  rw [List.length_drop] at hfraction
  rw [List.drop_append_of_le_length hwhole]
  generalize fractionRun (cs.drop whole ++ ds) = fraction at hfraction ⊢
  have hexponent := exponentRun_append_le (cs.drop (whole + fraction)) hds
  rw [List.length_drop] at hexponent
  rw [List.drop_append_of_le_length (by omega)]
  split
  · exact hbased
  split
  · exact hwhole
  · dsimp only
    omega

theorem opensMultiline_append_eq : opensMultiline (cs ++ ds) = opensMultiline cs := by
  have hquote : ∀ d ∈ ds.head?, d ≠ '"' := fun d hd => (hds.delimiter d hd).1
  match cs with
  | [] =>
    match ds with
    | [] => rfl
    | [d] => simp [opensMultiline]
    | d :: e :: ds => simp [opensMultiline, hquote d rfl]
  | [c] =>
    cases ds with
    | nil => rfl
    | cons d ds => simp [opensMultiline, hquote d rfl]
  | c :: d :: cs => rfl

/-! ### Literals and comments -/

omit hds in
/-- A literal that goes on into what is added is not closed. -/
theorem string_of_crossing {q : Quote} {opening : Nat}
    (h : string q opening (cs ++ ds) = some (k, n)) (hn : opening + cs.length < n) :
    q.rest? (encode cs) = none := by
  cases hscan : q.rest? (encode cs) with
  | none => rfl
  | some rest =>
    unfold string at h
    dsimp only at h
    rw [encode_append, Quote.rest?, Quote.scan_append hscan] at h
    simp only [Option.bind_eq_bind, Option.bind_eq_some_iff, Option.pure_def, Option.some.injEq,
      Prod.mk.injEq] at h
    obtain ⟨m, hm, -, rfl⟩ := h
    have hle := le_of_charsIn?_append hm (by
      rw [List.length_append, List.length_append]
      omega)
    omega

omit hds in
theorem kind_of_string {q : Quote} {opening : Nat} (hrest : q.rest? (encode cs) = none)
    (h : string q opening cs = some (k, n)) : k = .error := by
  unfold string at h
  dsimp only at h
  rw [hrest] at h
  simp only [Option.bind_eq_bind, Option.bind_eq_some_iff, Option.pure_def, Option.some.injEq,
    Prod.mk.injEq] at h
  obtain ⟨m, -, rfl, -⟩ := h
  rfl

/-- The same, be the literal one with a quote or one with three. -/
theorem kind_of_quote {pounds opening : Nat} {k' : TokenKind} {n' : Nat}
    (h : (if opensMultiline (cs ++ ds) then string ⟨true, pounds⟩ (opening + 2) ((cs ++ ds).drop 2)
      else string ⟨false, pounds⟩ opening (cs ++ ds)) = some (k, n))
    (hn : opening + cs.length < n)
    (h' : (if opensMultiline cs then string ⟨true, pounds⟩ (opening + 2) (cs.drop 2)
      else string ⟨false, pounds⟩ opening cs) = some (k', n')) : k' = .error := by
  rw [opensMultiline_append_eq hds] at h
  split at h
  · next hopens =>
    have htwo := two_le_of_opensMultiline hopens
    rw [List.drop_append_of_le_length htwo] at h
    rw [if_pos hopens] at h'
    exact kind_of_string (string_of_crossing h (by rw [List.length_drop]; omega)) h'
  · next hopens =>
    rw [if_neg hopens] at h'
    exact kind_of_string (string_of_crossing h hn) h'

/-- A comment that goes on into what is added is one to the end of the line or is not closed. -/
theorem kind_of_slash {k' : TokenKind} {n' : Nat} (h : slash (cs ++ ds) = some (k, n))
    (hn : cs.length < n) (h' : slash cs = some (k', n')) :
    k' = .error ∨ k' = .lineComment ∧ n' = cs.length := by
  cases cs with
  | nil =>
    have hzero : slash ds = some (.operator, 0) := by
      cases ds with
      | nil => rfl
      | cons d ds =>
        have hop := hds.operator d rfl
        have hslash := (hds.delimiter d rfl).2.2
        unfold slash
        split
        · next hcons => exact absurd (List.cons.inj hcons).1 hslash
        · next hcons =>
          rw [(List.cons.inj hcons).1] at hop
          exact absurd hop (by decide)
        · next hcons =>
          rw [(List.cons.inj hcons).1] at hop
          exact absurd hop (by decide)
        · rfl
    rw [List.nil_append, hzero] at h
    obtain ⟨-, rfl⟩ := Prod.mk.inj (Option.some.inj h)
    exact absurd hn (Nat.not_lt_zero _)
  | cons c cs =>
    rw [List.cons_append] at h
    rw [List.length_cons] at hn ⊢
    unfold slash at h
    split at h
    · next es hcons =>
      obtain ⟨rfl, rfl⟩ := List.cons.inj hcons
      obtain ⟨-, rfl⟩ := Prod.mk.inj (Option.some.inj h)
      obtain ⟨rfl, rfl⟩ := Prod.mk.inj (Option.some.inj h')
      refine .inr ⟨rfl, ?_⟩
      rw [List.takeWhile_append] at hn
      split at hn
      · omega
      · have := length_takeWhile_le (fun c => !isLineEnd c) cs
        omega
    · next es hcons =>
      obtain ⟨rfl, rfl⟩ := List.cons.inj hcons
      left
      rw [slash] at h'
      dsimp only at h h'
      cases hcomment : Comment.rest? 0 (encode cs) with
      | some rest =>
        rw [encode_append, Comment.rest?_append hcomment] at h
        simp only [Option.bind_eq_bind, Option.bind_eq_some_iff, Option.pure_def,
          Option.some.injEq, Prod.mk.injEq] at h
        obtain ⟨m, hm, -, rfl⟩ := h
        have hle := le_of_charsIn?_append hm (by
          rw [List.length_append, List.length_append]
          omega)
        omega
      | none =>
        rw [hcomment] at h'
        simp only [Option.bind_eq_bind, Option.bind_eq_some_iff, Option.pure_def,
          Option.some.injEq, Prod.mk.injEq] at h'
        obtain ⟨m, -, rfl, -⟩ := h'
        rfl
    · obtain ⟨-, rfl⟩ := Prod.mk.inj (Option.some.inj h)
      omega
    · obtain ⟨-, rfl⟩ := Prod.mk.inj (Option.some.inj h)
      omega

/-- Points that go on into what is added are all of the text. -/
theorem point_of_crossing (hn : cs.length < (point (cs ++ ds)).2) :
    point cs = (.dot, 0) ∧ (cs = [] ∨ cs = ['.']) := by
  have hlt : ∀ d ∈ ds.head?, d ≠ '<' := by
    rintro d hd rfl
    exact absurd (hds.operator '<' hd) (by decide)
  match cs with
  | [] => exact ⟨rfl, .inl rfl⟩
  | [c] =>
    rw [point_eq] at hn
    cases ds with
    | nil => exact absurd hn (by simp)
    | cons d ds =>
      have hne := hlt d rfl
      by_cases hc : c = '.'
      · subst hc
        exact ⟨rfl, .inr rfl⟩
      · simp [hc] at hn
  | c :: d :: cs =>
    rw [point_eq, List.length_cons, List.length_cons] at hn
    repeat' split at hn
    all_goals
      dsimp only at hn
      omega

theorem kind_of_pound {k' : TokenKind} {n' : Nat} (h : pound (cs ++ ds) = some (k, n))
    (hn : cs.length < n) (h' : pound cs = some (k', n')) : k' = .error := by
  have hmore : ((cs ++ ds).takeWhile (· == '#')).length = (cs.takeWhile (· == '#')).length :=
    length_takeWhile_of_append (length_takeWhile_append_le _ fun d hd =>
      beq_false_of_ne (hds.delimiter d hd).2.1)
  have hle := length_takeWhile_le (· == '#') cs
  have hword := length_takeWhile_append_le cs (p := isWordChar)
    (hds.of_class fun _ => isNameChar_of_isWordChar)
  have hlength := List.length_drop (i := (cs.takeWhile (· == '#')).length) (l := cs)
  unfold pound at h h'
  dsimp only at h h'
  rw [hmore, List.drop_append_of_le_length hle] at h
  generalize (cs.takeWhile (· == '#')).length = more at h h' hle hlength ⊢
  have hshort : ∀ {b : Prop} [Decidable b], (if b then
      some (directiveKind (String.ofList ((cs ++ ds).takeWhile isWordChar)),
        ((cs ++ ds).takeWhile isWordChar).length) else some (.error, more)) ≠ some (k, n) := by
    intro b _ heq
    split at heq
    all_goals
      obtain ⟨-, rfl⟩ := Prod.mk.inj (Option.some.inj heq)
      omega
  cases hdrop : cs.drop more with
  | nil =>
    rw [hdrop] at h'
    exact (Prod.mk.inj (Option.some.inj h')).1.symm
  | cons d es =>
    rw [hdrop, List.length_cons] at hlength
    rw [hdrop, List.cons_append] at h
    rw [hdrop] at h'
    by_cases hquote : d = '"'
    · subst hquote
      exact kind_of_quote hds h (by omega) h'
    · split at h
      · next hcons => exact absurd (List.cons.inj hcons).1 hquote
      · exact absurd h hshort
      · next hcons => cases hcons

omit hds in
/-- A quoted name that goes on into what is added does not end. -/
theorem backtick_of_crossing (hn : cs.length < (backtick (cs ++ ds)).2) :
    backtick cs = (.error, cs.length) := by
  unfold backtick at hn ⊢
  dsimp only at hn ⊢
  by_cases hall : (cs.takeWhile fun c => c != '\x60' && !isLineEnd c).length = cs.length
  · rw [hall, List.drop_length]
  · -- the name ends in the text, and the backtick behind it belongs to the text too
    exfalso
    have hle := length_takeWhile_le (fun c => c != '\x60' && !isLineEnd c) cs
    rw [List.takeWhile_append, if_neg hall, List.drop_append_of_le_length hle] at hn
    split at hn
    · split at hn <;> dsimp only at hn <;> omega
    · exact absurd hle (Nat.not_le_of_lt hn)

/-! ### All matches -/

/-- What can go on into a separator: an error, blanks or a line comment up to the end, and a point
    at the end. -/
inductive GoesOn (c : Char) (cs : List Char) : TokenKind → Nat → Prop where
  | error {n : Nat} : GoesOn c cs .error n
  | blank : GoesOn c cs .whitespace cs.length
  | comment : GoesOn c cs .lineComment cs.length
  | point (hc : c = '.') (hcs : cs = [] ∨ cs = ['.']) : GoesOn c cs .dot 0

theorem goesOn_of_token {k' : TokenKind} {n' : Nat} (h : token c (cs ++ ds) = some (k, n))
    (hn : cs.length < n) (h' : token c cs = some (k', n')) : GoesOn c cs k' n' := by
  have hrun : ∀ p : Char → Bool, (∀ d, p d = true → isNameChar d = true) →
      n = ((cs ++ ds).takeWhile p).length → False := by
    rintro p hp rfl
    exact absurd (length_takeWhile_append_le _ (hds.of_class hp)) (Nat.not_le_of_lt hn)
  unfold token at h h'
  by_cases hblank : isBlank c = true
  · rw [if_pos hblank] at h h'
    obtain ⟨-, rfl⟩ := Prod.mk.inj (Option.some.inj h)
    obtain ⟨rfl, rfl⟩ := Prod.mk.inj (Option.some.inj h')
    rw [List.takeWhile_append] at hn
    split at hn
    · next hall =>
      rw [hall]
      exact .blank
    · have := length_takeWhile_le isBlank cs
      omega
  rw [if_neg hblank] at h h'
  by_cases hslash : (c == '/') = true
  · rw [if_pos hslash] at h h'
    obtain rfl | ⟨rfl, rfl⟩ := kind_of_slash hds h hn h'
    · exact .error
    · exact .comment
  rw [if_neg hslash] at h h'
  by_cases hpoint : (c == '.') = true
  · rw [if_pos hpoint] at h h'
    obtain ⟨hdot, hcs⟩ := point_of_crossing hds (by rwa [Option.some.inj h])
    rw [hdot] at h'
    obtain ⟨rfl, rfl⟩ := Prod.mk.inj (Option.some.inj h')
    exact .point (eq_of_beq hpoint) hcs
  rw [if_neg hpoint] at h h'
  by_cases hpound : (c == '#') = true
  · rw [if_pos hpound] at h h'
    obtain rfl := kind_of_pound hds h hn h'
    exact .error
  rw [if_neg hpound] at h h'
  by_cases hquote : (c == '"') = true
  · rw [if_pos hquote] at h h'
    have hn' : 0 + cs.length < n := by omega
    obtain rfl := kind_of_quote hds h hn' h'
    exact .error
  rw [if_neg hquote] at h h'
  by_cases htick : (c == '\x60') = true
  · rw [if_pos htick] at h h'
    have hn' : cs.length < (backtick (cs ++ ds)).2 := by rwa [Option.some.inj h]
    rw [backtick_of_crossing hn'] at h'
    obtain ⟨rfl, rfl⟩ := Prod.mk.inj (Option.some.inj h')
    exact .error
  rw [if_neg htick] at h
  exfalso
  by_cases hdollar : (c == '$') = true
  · rw [if_pos hdollar] at h
    split at h
    · obtain ⟨-, rfl⟩ := Prod.mk.inj (Option.some.inj h)
      omega
    · next m hm =>
      obtain ⟨-, hlength⟩ := Prod.mk.inj (Option.some.inj h)
      exact hrun isWordChar (fun _ => isNameChar_of_isWordChar) (by omega)
  rw [if_neg hdollar] at h
  by_cases hdigit : c.isDigit = true
  · rw [if_pos hdigit] at h
    have hle : (number c (cs ++ ds)).2 ≤ cs.length := number_append_le hds
    rw [Option.some.inj h] at hle
    exact absurd hn (Nat.not_lt_of_le hle)
  rw [if_neg hdigit] at h
  by_cases hname : isNameStart c = true
  · rw [if_pos hname] at h
    obtain ⟨-, hlength⟩ := Prod.mk.inj (Option.some.inj h)
    exact hrun isNameChar (fun _ => id) hlength.symm
  rw [if_neg hname] at h
  by_cases hop : isOperatorChar c = true
  · rw [if_pos hop] at h
    obtain ⟨-, rfl⟩ := Prod.mk.inj (Option.some.inj h)
    exact absurd (length_takeWhile_append_le _ hds.operator) (Nat.not_le_of_lt hn)
  · rw [if_neg hop] at h
    obtain ⟨-, rfl⟩ := Prod.mk.inj (Option.some.inj h)
    exact absurd hn (Nat.not_lt_zero _)

/-- A match that does not go on is the same in front of a separator. -/
theorem token_append_of_separates (h : token c cs = some (k, n)) (hstop : ¬ GoesOn c cs k n) :
    token c (cs ++ ds) = some (k, n) := by
  obtain ⟨k', n', htoken, -⟩ := exists_match_token c (cs ++ ds)
  rcases Nat.lt_or_ge cs.length n' with hn | hn
  · exact absurd (goesOn_of_token hds htoken hn h) hstop
  · rw [htoken, ← token_of_append htoken hn, h]

end Separated

/-- A token that may stand at the end of a text, and something behind it. -/
def Closed (t : Token) : Prop :=
  t.kind ≠ .whitespace ∧ t.kind ≠ .lineComment ∧ t.kind ≠ .dot

/-- The tokens of two texts one behind the other. -/
theorem tokensOf_append_of_separates (hproper : ∀ t ∈ tokensOf cs, t.kind ≠ .error)
    (hlast : ∀ t ∈ (tokensOf cs).getLast?, Closed t) (hds : Separates ds) :
    tokensOf (cs ++ ds) = tokensOf cs ++ tokensOf ds := by
  -- the induction is on the length, since a match takes any number of characters
  induction hlen : cs.length using Nat.strongRecOn generalizing cs with
  | _ len ih =>
  subst hlen
  cases cs with
  | nil => rfl
  | cons c cs =>
    obtain ⟨k, m, htoken, hmatch⟩ := exists_match_token c cs
    obtain ⟨w, rest, rfl, rfl⟩ : ∃ w rest, cs = w ++ rest ∧ m = w.length :=
      ⟨cs.take m, cs.drop m, (List.take_append_drop m cs).symm, by
        rw [List.length_take, Nat.min_eq_left hmatch.length_le]⟩
    have htokens := tokensOf_of_token htoken
    have hstop : ¬ GoesOn c (w ++ rest) k w.length := by
      have hsole : k ≠ .operator → tokensOf (c :: (w ++ rest)) =
          ⟨k, String.ofList (c :: w)⟩ :: tokensOf rest := tokensOf_of_kind htoken
      have hrest : w.length = (w ++ rest).length → rest = [] := fun h => by
        rw [List.length_append] at h
        exact List.length_eq_zero_iff.mp (by omega)
      generalize hlength : w.length = m at hrest
      rintro (_ | _ | _ | ⟨rfl, hcs⟩)
      · rw [hsole (by decide)] at hproper
        exact hproper _ List.mem_cons_self rfl
      · rw [hsole (by decide), hrest rfl] at hlast
        exact (hlast _ rfl).1 rfl
      · rw [hsole (by decide), hrest rfl] at hlast
        exact (hlast _ rfl).2.1 rfl
      · have hdots : ∀ t ∈ (tokensOf ('.' :: (w ++ rest))).getLast?, t.kind = .dot := by
          rcases hcs with hcs | hcs
          all_goals
            rw [hcs]
            decide
        cases htail : (tokensOf ('.' :: (w ++ rest))).getLast? with
        | none =>
          rw [hsole (by decide), List.getLast?_cons] at htail
          cases htail
        | some t => exact (hlast t htail).2.2 (hdots t htail)
    have hsame := token_append_of_separates hds htoken hstop
    rw [List.append_assoc] at hsame
    have hrest := ih rest.length (by rw [List.length_cons, List.length_append]; omega)
      (fun t ht => hproper t (by rw [htokens]; exact List.mem_append_right _ ht))
      (fun t ht => hlast t (by
        rw [htokens, List.getLast?_append, Option.mem_def.mp ht]
        rfl)) rfl
    rw [List.cons_append, List.append_assoc, tokensOf_of_token hsame, hrest, htokens,
      List.append_assoc]

end Lexer

end SwiftOutline
