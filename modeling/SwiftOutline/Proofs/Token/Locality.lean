/-
  SwiftOutline.Proofs.Token.Locality

  Every token depends on its own text alone. A match is found again if the text
  is cut off behind it, whatever the lexer looked at beyond, so a text that is
  cut out between two tokens is split into the tokens that it consists of.
-/
import SwiftOutline.Proofs.Token.Spelling
import SwiftOutline.Proofs.Token.Truncation
import SwiftOutline.Proofs.Tree.Leaves

namespace SwiftOutline

namespace Lexer

variable {c : Char} {cs ds : List Char} {k : TokenKind} {n : Nat} {p : Char → Bool}

/-! ## Runs in front of a cut -/

theorem drop_append_of_le {m : Nat} (h : m ≤ cs.length) : (cs ++ ds).drop m = cs.drop m ++ ds :=
  List.drop_append_of_le_length h

/-- The length of a run that ends in front of a cut. -/
theorem length_takeWhile_of_append (h : ((cs ++ ds).takeWhile p).length ≤ cs.length) :
    ((cs ++ ds).takeWhile p).length = (cs.takeWhile p).length := by
  rw [List.takeWhile_append_of_length_le h]

theorem digitRun_of_append (h : digitRun p (cs ++ ds) ≤ cs.length) :
    digitRun p (cs ++ ds) = digitRun p cs := by
  cases cs with
  | nil => exact Nat.le_zero.mp h
  | cons c cs =>
    rw [List.cons_append, digitRun, List.length_cons] at h
    rw [List.cons_append, digitRun, digitRun]
    split
    · next hdigit =>
      rw [if_pos hdigit] at h
      rw [length_takeWhile_of_append (by omega)]
    · rfl

theorem exponentRun_of_append (h : exponentRun (cs ++ ds) ≤ cs.length) :
    exponentRun (cs ++ ds) = exponentRun cs := by
  cases cs with
  | nil => exact Nat.le_zero.mp h
  | cons e cs =>
    rw [List.cons_append, exponentRun, List.length_cons] at h
    rw [List.cons_append, exponentRun, exponentRun]
    split
    · next he =>
      rw [if_pos he] at h
      cases cs with
      | nil =>
        -- no digits fit in
        rw [List.nil_append] at h ⊢
        split at h
        · rfl
        · rw [List.length_nil] at h
          omega
      | cons s cs =>
        have hsign : signRun (s :: cs ++ ds) = signRun (s :: cs) := rfl
        have hle : signRun (s :: cs) ≤ (s :: cs).length := by
          rw [signRun, List.length_cons]
          split <;> omega
        rw [hsign, drop_append_of_le hle] at h ⊢
        have hdigits : digitRun Char.isDigit ((s :: cs).drop (signRun (s :: cs)) ++ ds) ≤
            ((s :: cs).drop (signRun (s :: cs))).length := by
          rw [List.length_drop]
          split at h <;> omega
        rw [digitRun_of_append hdigits]
    · rfl

theorem fractionRun_of_append (h : fractionRun (cs ++ ds) ≤ cs.length) :
    fractionRun (cs ++ ds) = fractionRun cs := by
  cases cs with
  | nil => exact Nat.le_zero.mp h
  | cons c cs =>
    by_cases hpoint : c = '.'
    · subst hpoint
      rw [List.cons_append, fractionRun, List.length_cons] at h
      rw [List.cons_append, fractionRun, fractionRun]
      have hdigits : digitRun Char.isDigit (cs ++ ds) ≤ cs.length := by split at h <;> omega
      rw [digitRun_of_append hdigits]
    · have hnone : ∀ es : List Char, fractionRun (c :: es) = 0 := by
        intro es
        unfold fractionRun
        split
        · next hcons => exact absurd (List.cons.inj hcons).1 hpoint
        · rfl
      rw [List.cons_append, hnone, hnone]

theorem basedRun_of_append (h : basedRun (cs ++ ds) ≤ cs.length) :
    basedRun (cs ++ ds) = basedRun cs := by
  cases cs with
  | nil => exact Nat.le_zero.mp h
  | cons mark cs =>
    rw [List.cons_append, basedRun, List.length_cons] at h
    rw [List.cons_append, basedRun, basedRun]
    have hdigits : (if mark == 'x' then digitRun isHexDigit (cs ++ ds)
        else if mark == 'o' then digitRun isOctalDigit (cs ++ ds)
        else if mark == 'b' then digitRun isBinaryDigit (cs ++ ds)
        else 0) ≤ cs.length := by
      split at h <;> omega
    by_cases hx : (mark == 'x') = true
    · rw [if_pos hx] at hdigits
      rw [if_pos hx, if_pos hx, digitRun_of_append hdigits]
    rw [if_neg hx] at hdigits
    rw [if_neg hx, if_neg hx]
    by_cases ho : (mark == 'o') = true
    · rw [if_pos ho] at hdigits
      rw [if_pos ho, if_pos ho, digitRun_of_append hdigits]
    rw [if_neg ho] at hdigits
    rw [if_neg ho, if_neg ho]
    by_cases hb : (mark == 'b') = true
    · rw [if_pos hb] at hdigits
      rw [if_pos hb, if_pos hb, digitRun_of_append hdigits]
    · rw [if_neg hb, if_neg hb]

theorem number_of_append (h : (number c (cs ++ ds)).2 ≤ cs.length) :
    number c (cs ++ ds) = number c cs := by
  unfold number at h ⊢
  dsimp only at h ⊢
  -- whether there is a base mark or not, its digits end in front of the cut
  have hbased : (if c == '0' then basedRun (cs ++ ds) else 0) =
      if c == '0' then basedRun cs else 0 := by
    split
    · next hzero =>
      refine basedRun_of_append ?_
      rw [if_pos hzero] at h
      split at h
      · exact h
      · omega
    · rfl
  rw [hbased] at h ⊢
  generalize (if c == '0' then basedRun cs else 0) = based at h ⊢
  split
  · rfl
  next hnone =>
  rw [if_neg hnone] at h
  have hwhole : ((cs ++ ds).takeWhile fun d => d.isDigit || d == '_').length ≤ cs.length := by
    split at h <;> dsimp only at h <;> omega
  have hsame := length_takeWhile_of_append hwhole
  rw [hsame] at hwhole h ⊢
  generalize (cs.takeWhile fun d => d.isDigit || d == '_').length = whole at hwhole h ⊢
  rw [drop_append_of_le hwhole] at h ⊢
  have hfraction : fractionRun (cs.drop whole ++ ds) ≤ (cs.drop whole).length := by
    rw [List.length_drop]
    split at h
    · next hzero =>
      rw [beq_iff_eq] at hzero
      omega
    · dsimp only at h
      omega
  have hpoint := fractionRun_of_append hfraction
  rw [hpoint] at hfraction h ⊢
  rw [List.length_drop] at hfraction
  generalize fractionRun (cs.drop whole) = fraction at hfraction h ⊢
  rw [drop_append_of_le (by omega)] at h ⊢
  have hexponent : exponentRun (cs.drop (whole + fraction) ++ ds) ≤
      (cs.drop (whole + fraction)).length := by
    rw [List.length_drop]
    split at h
    · next hzero =>
      rw [beq_iff_eq] at hzero
      omega
    · dsimp only at h
      omega
  rw [exponentRun_of_append hexponent]

/-! ## Comments and string literals in front of a cut -/

theorem opensMultiline_of_append (h : 2 ≤ cs.length) :
    opensMultiline (cs ++ ds) = opensMultiline cs := by
  rw [opensMultiline, opensMultiline, List.take_append_of_le_length h]

theorem opensMultiline_append (h : opensMultiline cs = true) :
    opensMultiline (cs ++ ds) = true := by
  rw [opensMultiline_of_append (two_le_of_opensMultiline h), h]

/-- Bytes behind an end that is found belong to the text. -/
theorem length_encode_le {cs ds : List Char} {after : List UInt8} {m : Nat}
    (h : Utf8.charsIn? ((Utf8.encode (cs ++ ds)).length - after.length) (cs ++ ds) = some m)
    (hm : m ≤ cs.length) (hafter : after.length ≤ (Utf8.encode (cs ++ ds)).length) :
    (Utf8.encode ds).length ≤ after.length := by
  have hbytes := Utf8.bytes_le_of_append h hm
  rw [Utf8.encode_append, List.length_append] at hbytes hafter
  omega

/-- What is counted up to an end is counted without what was cut off. -/
theorem charsIn?_of_rest {cs ds : List Char} {rest : List UInt8} {m : Nat}
    (h : Utf8.charsIn? ((Utf8.encode (cs ++ ds)).length - (rest ++ Utf8.encode ds).length)
      (cs ++ ds) = some m) (hm : m ≤ cs.length) :
    Utf8.charsIn? ((Utf8.encode cs).length - rest.length) cs = some m := by
  rw [Utf8.encode_append, List.length_append, List.length_append, Nat.add_sub_add_right] at h
  exact Utf8.charsIn?_of_append h hm

/-- All bytes up to a cut are no more than the text up to there only if nothing was cut off. -/
theorem eq_nil_of_charsIn? {m : Nat}
    (h : Utf8.charsIn? (Utf8.encode (cs ++ ds)).length (cs ++ ds) = some m) (hm : m ≤ cs.length) :
    ds = [] := by
  rw [Utf8.charsIn?_all] at h
  obtain rfl := Option.some.inj h
  rw [List.length_append] at hm
  exact List.length_eq_zero_iff.mp (by omega)

theorem string_of_append {q : Quote} {opening : Nat} (h : string q opening (cs ++ ds) = some (k, n))
    (hn : n ≤ opening + cs.length) : string q opening cs = some (k, n) := by
  unfold string at h ⊢
  dsimp only at h ⊢
  cases hrest : q.rest? (Utf8.encode (cs ++ ds)) with
  | some after =>
    simp only [hrest, Option.bind_eq_bind, Option.bind_eq_some_iff, Option.pure_def,
      Option.some.injEq, Prod.mk.injEq] at h
    obtain ⟨m, hm, rfl, rfl⟩ := h
    have hafter := Quote.length_le_of_scan hrest
    rw [Utf8.encode_append] at hrest
    obtain ⟨rest, hscan, rfl⟩ := Quote.exists_scan_of_append hrest
      (length_encode_le hm (by omega) (by omega))
    rw [show q.rest? (Utf8.encode cs) = some rest from hscan]
    simp [charsIn?_of_rest hm (by omega)]
  | none =>
    have hnone : q.rest? (Utf8.encode cs) = none := by
      cases hscan : q.rest? (Utf8.encode cs) with
      | none => rfl
      | some rest =>
        rw [Utf8.encode_append, Quote.rest?, Quote.scan_append hscan] at hrest
        exact nomatch hrest
    simp only [hrest, Option.bind_eq_bind, Option.bind_eq_some_iff, Option.pure_def,
      Option.some.injEq, Prod.mk.injEq] at h
    obtain ⟨m, hm, rfl, rfl⟩ := h
    rw [hnone]
    cases hmultiline : q.multiline with
    | true =>
      rw [if_pos hmultiline] at hm
      obtain rfl := eq_nil_of_charsIn? hm (by omega)
      rw [List.append_nil] at hm
      simp [hm]
    | false =>
      rw [if_neg (by simp [hmultiline])] at hm
      have hline := Utf8.bytes_le_of_append hm (by omega)
      rw [Utf8.encode_append] at hm hline
      rw [List.takeWhile_append_of_length_le hline] at hm
      simp [Utf8.charsIn?_of_append hm (by omega)]

theorem opening_le_of_string {q : Quote} {opening : Nat} (h : string q opening cs = some (k, n)) :
    opening ≤ n := by
  unfold string at h
  dsimp only at h
  split at h
  all_goals
    simp only [Option.bind_eq_bind, Option.bind_eq_some_iff, Option.pure_def, Option.some.injEq,
      Prod.mk.injEq] at h
    obtain ⟨m, -, -, rfl⟩ := h
    exact Nat.le_add_right _ _

theorem slash_of_append (h : slash (cs ++ ds) = some (k, n)) (hn : n ≤ cs.length) :
    slash cs = some (k, n) := by
  cases cs with
  | nil =>
    -- only the slash by itself has no more characters
    obtain rfl := Nat.le_zero.mp hn
    rw [List.nil_append] at h
    unfold slash at h
    split at h
    · obtain ⟨-, hzero⟩ := Prod.mk.inj (Option.some.inj h)
      omega
    · dsimp only at h
      split at h
      all_goals
        simp only [Option.bind_eq_bind, Option.bind_eq_some_iff, Option.pure_def, Option.some.injEq,
          Prod.mk.injEq] at h
        obtain ⟨m, -, -, hzero⟩ := h
        omega
    · obtain ⟨-, hzero⟩ := Prod.mk.inj (Option.some.inj h)
      omega
    · exact h
  | cons c cs =>
    rw [List.length_cons] at hn
    rw [List.cons_append] at h
    unfold slash at h
    split at h
    · next es hcons =>
      obtain ⟨rfl, rfl⟩ := List.cons.inj hcons
      obtain ⟨rfl, rfl⟩ := Prod.mk.inj (Option.some.inj h)
      rw [slash, length_takeWhile_of_append (by omega)]
    · next es hcons =>
      obtain ⟨rfl, rfl⟩ := List.cons.inj hcons
      rw [slash]
      dsimp only at h ⊢
      cases hrest : Comment.rest? 0 (Utf8.encode (cs ++ ds)) with
      | some after =>
        simp only [hrest, Option.bind_eq_bind, Option.bind_eq_some_iff, Option.pure_def,
          Option.some.injEq, Prod.mk.injEq] at h
        obtain ⟨m, hm, rfl, rfl⟩ := h
        have hafter := Comment.length_le_of_rest? hrest
        rw [Utf8.encode_append] at hrest
        obtain ⟨rest, hcomment, rfl⟩ := Comment.exists_rest?_of_append hrest
          (length_encode_le hm (by omega) (by omega))
        rw [hcomment]
        simp [charsIn?_of_rest hm (by omega)]
      | none =>
        simp only [hrest, Option.bind_eq_bind, Option.bind_eq_some_iff, Option.pure_def,
          Option.some.injEq, Prod.mk.injEq] at h
        obtain ⟨m, hm, rfl, rfl⟩ := h
        obtain rfl := eq_nil_of_charsIn? hm (by omega)
        rw [List.append_nil] at hrest hm
        rw [hrest]
        simp [hm]
    · next es hcons =>
      obtain ⟨rfl, -⟩ := List.cons.inj hcons
      exact h
    · next hline hcomment hassign =>
      unfold slash
      split
      · next es hcons => exact (hline _ (congrArg (· ++ ds) hcons)).elim
      · next es hcons => exact (hcomment _ (congrArg (· ++ ds) hcons)).elim
      · next es hcons => exact (hassign _ (congrArg (· ++ ds) hcons)).elim
      · exact h

/-! ## Other patterns in front of a cut -/

/-- Two more characters tell what begins with a point. -/
theorem point_eq (cs : List Char) :
    point cs =
      if cs.take 2 = ['.', '.'] then (.ellipsis, 2)
      else if cs.take 2 = ['.', '<'] then (.operator, 2)
      else (.dot, 0) := by
  unfold point
  split
  · rfl
  · rfl
  · next hdots hless =>
    have htake : ∀ d, (∀ es, cs = '.' :: d :: es → False) → cs.take 2 ≠ ['.', d] := by
      intro d hnone heq
      have hsplit := List.take_append_drop 2 cs
      rw [heq] at hsplit
      exact hnone _ hsplit.symm
    rw [if_neg (htake '.' hdots), if_neg (htake '<' hless)]

theorem point_of_append (h : (point (cs ++ ds)).2 ≤ cs.length) :
    point (cs ++ ds) = point cs := by
  rw [point_eq] at h
  rw [point_eq, point_eq]
  by_cases htwo : 2 ≤ cs.length
  · rw [List.take_append_of_le_length htwo]
  · have hshort : ∀ d, cs.take 2 ≠ ['.', d] := by
      intro d heq
      have hlength := congrArg List.length heq
      rw [List.length_take, List.length_cons, List.length_singleton] at hlength
      omega
    rw [if_neg (hshort '.'), if_neg (hshort '<')]
    split at h
    · exact absurd h htwo
    next hdots =>
    split at h
    · exact absurd h htwo
    next hless =>
    rw [if_neg hdots, if_neg hless]

/-- A raw string and a string that is not raw. -/
theorem quote_of_append (pounds opening : Nat)
    (h : (if opensMultiline (cs ++ ds) then string ⟨true, pounds⟩ (opening + 2) ((cs ++ ds).drop 2)
      else string ⟨false, pounds⟩ opening (cs ++ ds)) = some (k, n)) (hn : n ≤ opening + cs.length) :
    (if opensMultiline cs then string ⟨true, pounds⟩ (opening + 2) (cs.drop 2)
      else string ⟨false, pounds⟩ opening cs) = some (k, n) := by
  cases hopens : opensMultiline (cs ++ ds) with
  | true =>
    rw [if_pos hopens] at h
    have htwo : 2 ≤ cs.length := by
      have := opening_le_of_string h
      omega
    rw [drop_append_of_le htwo] at h
    rw [if_pos ((opensMultiline_of_append htwo).symm.trans hopens)]
    exact string_of_append h (by rw [List.length_drop]; omega)
  | false =>
    rw [if_neg (by simp [hopens])] at h
    have hsingle : opensMultiline cs ≠ true := fun htrue => by
      rw [opensMultiline_append htrue] at hopens
      exact nomatch hopens
    rw [if_neg hsingle]
    exact string_of_append h hn

theorem isWordChar_of_start (h : (c.isAlpha || c == '_') = true) : isWordChar c = true := by
  rw [Bool.or_eq_true] at h
  rw [isWordChar, Char.isAlphanum, Bool.or_eq_true, Bool.or_eq_true]
  rcases h with h | h
  · exact Or.inl (Or.inl h)
  · exact Or.inr h

theorem pound_of_append (h : pound (cs ++ ds) = some (k, n)) (hn : n ≤ cs.length) :
    pound cs = some (k, n) := by
  have hmore : ((cs ++ ds).takeWhile (· == '#')).length ≤ cs.length := by
    unfold pound at h
    dsimp only at h
    split at h
    · split at h
      all_goals
        have := opening_le_of_string h
        omega
    · split at h
      · next hzero =>
        simp only [Bool.and_eq_true, beq_iff_eq] at hzero
        omega
      · obtain ⟨-, rfl⟩ := Prod.mk.inj (Option.some.inj h)
        exact hn
    · obtain ⟨-, rfl⟩ := Prod.mk.inj (Option.some.inj h)
      exact hn
  have hsame := length_takeWhile_of_append hmore
  unfold pound at h ⊢
  dsimp only at h ⊢
  rw [hsame] at hmore h
  rw [drop_append_of_le hmore] at h
  have hlength := List.length_drop (i := (cs.takeWhile (· == '#')).length) (l := cs)
  generalize (cs.takeWhile (· == '#')).length = more at hmore h hlength ⊢
  cases hdrop : cs.drop more with
  | nil =>
    -- neither a string nor a directive fits in
    rw [hdrop, List.length_nil] at hlength
    rw [hdrop, List.nil_append] at h
    split at h
    · split at h
      all_goals
        have := opening_le_of_string h
        omega
    · next c es _ =>
      split at h
      · next hword =>
        simp only [Bool.and_eq_true, beq_iff_eq] at hword
        obtain rfl : cs = [] := List.length_eq_zero_iff.mp (by omega)
        obtain ⟨-, rfl⟩ := Prod.mk.inj (Option.some.inj h)
        rw [List.nil_append, List.takeWhile_cons_of_pos (isWordChar_of_start hword.2)] at hn
        exact absurd hn (Nat.not_succ_le_zero _)
      · exact h
    · exact h
  | cons d es =>
    rw [hdrop, List.length_cons] at hlength
    rw [hdrop, List.cons_append] at h
    by_cases hquote : d = '"'
    · subst hquote
      exact quote_of_append (more + 1) (more + 1) h (by omega)
    split at h
    · next hcons => exact absurd (List.cons.inj hcons).1 hquote
    · next hcons =>
      obtain ⟨rfl, -⟩ := List.cons.inj hcons
      split
      · next hword =>
        rw [if_pos hword] at h
        obtain ⟨rfl, rfl⟩ := Prod.mk.inj (Option.some.inj h)
        rw [List.takeWhile_append_of_length_le hn]
      · next hword =>
        rw [if_neg hword] at h
        exact h
    · next hcons => exact nomatch hcons

theorem backtick_of_append (h : (backtick (cs ++ ds)).2 ≤ cs.length) :
    backtick (cs ++ ds) = backtick cs := by
  have hname : ((cs ++ ds).takeWhile fun c => c != '\x60' && !isLineEnd c).length ≤ cs.length := by
    unfold backtick at h
    dsimp only at h
    split at h
    · split at h
      · next hzero =>
        rw [eq_of_beq hzero]
        exact Nat.zero_le _
      · dsimp only at h
        omega
    · exact h
  unfold backtick at h ⊢
  dsimp only at h ⊢
  have hsame := length_takeWhile_of_append hname
  rw [hsame] at hname h ⊢
  generalize (cs.takeWhile fun c => c != '\x60' && !isLineEnd c).length = name at hname h ⊢
  rw [drop_append_of_le hname] at h ⊢
  cases hdrop : cs.drop name with
  | cons d es =>
    rw [hdrop, List.cons_append] at h
    by_cases htick : d = '\x60'
    · subst htick
      rfl
    · split
      · next hcons => exact absurd (List.cons.inj hcons).1 htick
      · split
        · next hcons => exact absurd (List.cons.inj hcons).1 htick
        · rfl
  | nil =>
    -- a second backtick behind the cut does not count, unless nothing stands in between
    have hlength := List.length_drop (i := name) (l := cs)
    rw [hdrop, List.length_nil] at hlength
    rw [hdrop, List.nil_append] at h
    rw [List.nil_append]
    split at h
    · split at h
      · next hzero =>
        rw [if_pos hzero, eq_of_beq hzero]
      · dsimp only at h
        omega
    · rfl

/-! ## All tokens in front of a cut -/

/-- A match that ends in front of a cut is found without what was cut off. -/
theorem token_of_append (h : token c (cs ++ ds) = some (k, n)) (hn : n ≤ cs.length) :
    token c cs = some (k, n) := by
  unfold token at h ⊢
  by_cases hblank : isBlank c = true
  · rw [if_pos hblank] at h ⊢
    obtain ⟨rfl, rfl⟩ := Prod.mk.inj (Option.some.inj h)
    rw [length_takeWhile_of_append hn]
  rw [if_neg hblank] at h ⊢
  by_cases hslash : (c == '/') = true
  · rw [if_pos hslash] at h ⊢
    exact slash_of_append h hn
  rw [if_neg hslash] at h ⊢
  by_cases hpoint : (c == '.') = true
  · rw [if_pos hpoint] at h ⊢
    have hread := Option.some.inj h
    rw [← point_of_append (by rw [hread]; exact hn), hread]
  rw [if_neg hpoint] at h ⊢
  by_cases hpound : (c == '#') = true
  · rw [if_pos hpound] at h ⊢
    exact pound_of_append h hn
  rw [if_neg hpound] at h ⊢
  by_cases hquote : (c == '"') = true
  · rw [if_pos hquote] at h ⊢
    exact quote_of_append 0 0 h (by omega)
  rw [if_neg hquote] at h ⊢
  by_cases htick : (c == '\x60') = true
  · rw [if_pos htick] at h ⊢
    have hread := Option.some.inj h
    rw [← backtick_of_append (by rw [hread]; exact hn), hread]
  rw [if_neg htick] at h ⊢
  by_cases hdollar : (c == '$') = true
  · rw [if_pos hdollar] at h ⊢
    have hword : ((cs ++ ds).takeWhile isWordChar).length ≤ cs.length := by
      split at h
      · omega
      · obtain ⟨-, rfl⟩ := Prod.mk.inj (Option.some.inj h)
        omega
    rw [← length_takeWhile_of_append hword, h]
  rw [if_neg hdollar] at h ⊢
  by_cases hdigit : c.isDigit = true
  · rw [if_pos hdigit] at h ⊢
    have hread := Option.some.inj h
    rw [← number_of_append (by rw [hread]; exact hn), hread]
  rw [if_neg hdigit] at h ⊢
  by_cases hname : isNameStart c = true
  · rw [if_pos hname] at h ⊢
    obtain ⟨rfl, rfl⟩ := Prod.mk.inj (Option.some.inj h)
    rw [List.takeWhile_append_of_length_le hn]
  rw [if_neg hname] at h ⊢
  by_cases hop : isOperatorChar c = true
  · rw [if_pos hop] at h ⊢
    obtain ⟨rfl, rfl⟩ := Prod.mk.inj (Option.some.inj h)
    rw [List.takeWhile_append_of_length_le hn]
  · rw [if_neg hop] at h ⊢
    exact h

/-! ## Splitting a text between two tokens -/

/-- A text that is cut off behind its first match or later still begins with this match. -/
theorem tokensOf_of_append {xs : List Char} (h : token c (cs ++ (xs ++ ds)) = some (k, cs.length)) :
    tokensOf (c :: (cs ++ xs)) = Token.parts ⟨k, String.ofList (c :: cs)⟩ ++ tokensOf xs := by
  rw [← List.append_assoc] at h
  refine tokensOf_of_token (token_of_append h ?_)
  rw [List.length_append]
  exact Nat.le_add_right _ _

/-- A match that is split into marks is a whole run of operator characters. -/
theorem marks_of_isPostfixRun {t : Token} (h : token c (cs ++ ds) = some (k, cs.length))
    (ht : t = ⟨k, String.ofList (c :: cs)⟩) (hrun : t.isPostfixRun = true) :
    (∀ d ∈ c :: cs, Token.isMark d = true) ∧ ∀ d ∈ ds.head?, isOperatorChar d = false := by
  subst ht
  simp only [Token.isPostfixRun, String.toList_ofList, Bool.and_eq_true, List.all_eq_true] at hrun
  have hmarks := hrun.2
  refine ⟨hmarks, fun d hd => ?_⟩
  rw [token_operator (isOperatorChar_of_isMark (hmarks c List.mem_cons_self))] at h
  obtain ⟨-, hlength⟩ := Prod.mk.inj (Option.some.inj h)
  cases ds with
  | nil => cases hd
  | cons e es =>
    obtain rfl : e = d := Option.some.inj hd
    cases he : isOperatorChar e with
    | false => rfl
    | true =>
      -- a further operator character would belong to the run
      have hall : ∀ d ∈ cs, isOperatorChar d = true := fun d hd =>
        isOperatorChar_of_isMark (hmarks d (List.mem_cons_of_mem c hd))
      rw [List.takeWhile_append_of_pos hall, List.takeWhile_cons_of_pos he, List.length_append,
        List.length_cons] at hlength
      omega

/-- Wherever the tokens of a text are parted, the text can be: either part consists of its own
    tokens. -/
theorem exists_split_of_tokensOf {front back : List Token} (h : tokensOf cs = front ++ back) :
    ∃ xs ys, cs = xs ++ ys ∧ tokensOf xs = front ∧ tokensOf ys = back := by
  -- the induction is on the length, since a match takes any number of characters
  induction hlen : cs.length using Nat.strongRecOn generalizing cs front with
  | _ len ih =>
  subst hlen
  cases cs with
  | nil =>
    obtain ⟨rfl, rfl⟩ := List.append_eq_nil_iff.mp h.symm
    exact ⟨[], [], rfl, rfl, rfl⟩
  | cons c cs =>
    obtain ⟨k, n, htoken, hmatch⟩ := exists_match_token c cs
    obtain ⟨w, rest, rfl, rfl⟩ : ∃ w rest, cs = w ++ rest ∧ n = w.length :=
      ⟨cs.take n, cs.drop n, (List.take_append_drop n cs).symm, by
        rw [List.length_take, Nat.min_eq_left hmatch.length_le]⟩
    -- parts of the rest are parts of the text behind the match
    have hbehind : ∀ front', tokensOf rest = front' ++ back → ∃ xs ys,
        c :: (w ++ rest) = xs ++ ys ∧
          tokensOf xs = Token.parts ⟨k, String.ofList (c :: w)⟩ ++ front' ∧ tokensOf ys = back := by
      intro front' hrest
      obtain ⟨xs, ys, rfl, rfl, hys⟩ := ih rest.length
        (by rw [List.length_cons, List.length_append]; omega) hrest rfl
      exact ⟨c :: (w ++ xs), ys, by simp, tokensOf_of_append htoken, hys⟩
    rw [tokensOf_of_token htoken] at h
    rcases List.append_eq_append_iff.mp h with ⟨front', rfl, hrest⟩ | ⟨mid, hparts, rfl⟩
    · exact hbehind front' hrest
    · by_cases hrun : Token.isPostfixRun ⟨k, String.ofList (c :: w)⟩ = true
      · -- the text is parted between two marks
        obtain ⟨hmarks, hstop⟩ := marks_of_isPostfixRun htoken rfl hrun
        rw [Token.parts, if_pos hrun, String.toList_ofList] at hparts
        obtain ⟨us, vs, hsplit, rfl, rfl⟩ := List.map_eq_append_iff.mp hparts
        rw [hsplit] at hmarks
        have hus : tokensOf (us ++ []) = us.map mark ++ tokensOf [] :=
          tokensOf_marks (fun d hd => hmarks d (List.mem_append_left vs hd)) (by simp)
        rw [List.append_nil] at hus
        refine ⟨us, vs ++ rest, ?_, hus.trans (List.append_nil _),
          tokensOf_marks (fun d hd => hmarks d (List.mem_append_right us hd)) hstop⟩
        rw [← List.cons_append, hsplit, List.append_assoc]
      · rw [Token.parts, if_neg hrun] at hparts
        cases front with
        | nil => exact ⟨[], c :: (w ++ rest), rfl, rfl, by
            rw [tokensOf_of_token htoken, Token.parts, if_neg hrun, hparts, List.nil_append]⟩
        | cons t front =>
          obtain ⟨rfl, hnil⟩ := List.cons.inj hparts
          obtain ⟨rfl, rfl⟩ := List.append_eq_nil_iff.mp hnil.symm
          obtain ⟨xs, ys, hsplit, hxs, hys⟩ := hbehind [] rfl
          exact ⟨xs, ys, hsplit, by rw [hxs, Token.parts, if_neg hrun, List.append_nil], hys⟩

end Lexer

/-! ## Stretches of tokens -/

namespace Span

/-- The span with `offset` more bytes in front of it. -/
def shift (offset : Nat) (s : Span) : Span := ⟨s.start + offset, s.stop + offset⟩

end Span

namespace Token

/-- The offsets between tokens that are written from `offset` on, both ends included. -/
def boundaries : (offset : Nat) → List Token → List Nat
  | offset, [] => [offset]
  | offset, t :: ts => offset :: boundaries (offset + t.size) ts

variable {ts : List Token} {a b : Nat}

theorem mem_boundaries {offset : Nat} :
    a ∈ boundaries offset ts ↔ ∃ front back, ts = front ++ back ∧ a = offset + totalSize front := by
  induction ts generalizing offset with
  | nil =>
    rw [boundaries, List.mem_singleton]
    constructor
    · rintro rfl
      exact ⟨[], [], rfl, rfl⟩
    · rintro ⟨front, back, hnil, rfl⟩
      obtain ⟨rfl, rfl⟩ := List.append_eq_nil_iff.mp hnil.symm
      rfl
  | cons t ts ih =>
    rw [boundaries, List.mem_cons, ih]
    constructor
    · rintro (rfl | ⟨front, back, rfl, rfl⟩)
      · exact ⟨[], t :: ts, rfl, rfl⟩
      · exact ⟨t :: front, back, rfl, by rw [totalSize, Nat.add_assoc]⟩
    · rintro ⟨front, back, hsplit, rfl⟩
      cases front with
      | nil => exact .inl rfl
      | cons u front =>
        obtain ⟨rfl, rfl⟩ := List.cons.inj hsplit
        exact .inr ⟨front, back, rfl, by rw [totalSize, Nat.add_assoc]⟩

theorem eq_nil_of_totalSize (h : ∀ t ∈ ts, t.text ≠ "") (hsize : totalSize ts = 0) : ts = [] := by
  cases ts with
  | nil => rfl
  | cons t ts =>
    have := size_pos (h t List.mem_cons_self)
    rw [totalSize] at hsize
    omega

/-- Between two boundaries stand whole tokens. -/
theorem exists_between (h : ∀ t ∈ ts, t.text ≠ "") (ha : a ∈ boundaries 0 ts)
    (hb : b ∈ boundaries 0 ts) (hab : a ≤ b) :
    ∃ front mid back, ts = front ++ (mid ++ back) ∧ a = totalSize front ∧
      b = totalSize front + totalSize mid := by
  obtain ⟨front, behind, rfl, rfl⟩ := mem_boundaries.mp ha
  obtain ⟨before, back, hsplit, rfl⟩ := mem_boundaries.mp hb
  rw [Nat.zero_add, Nat.zero_add] at hab
  rcases List.append_eq_append_iff.mp hsplit with ⟨mid, rfl, rfl⟩ | ⟨mid, rfl, rfl⟩
  · exact ⟨front, mid, back, rfl, Nat.zero_add _, by rw [Nat.zero_add, totalSize_append]⟩
  · -- the boundaries are the same
    rw [totalSize_append] at hab
    obtain rfl : mid = [] := eq_nil_of_totalSize
      (fun t ht => h t (List.mem_append_left _ (List.mem_append_right _ ht))) (by omega)
    refine ⟨before, [], behind, by simp, by simp, ?_⟩
    rw [Nat.zero_add, totalSize, Nat.add_zero]

/-- Tokens stand between the ends of the stretch that they make up. -/
theorem bounds_of_mem_layout {offset : Nat} (h : ∀ t ∈ ts, t.text ≠ "") {p : Span × Token}
    (hp : p ∈ layout offset ts) :
    offset ≤ p.1.start ∧ p.1.start < p.1.stop ∧ p.1.stop ≤ offset + totalSize ts := by
  induction ts generalizing offset with
  | nil => exact absurd hp List.not_mem_nil
  | cons t ts ih =>
    have hpos := size_pos (h t List.mem_cons_self)
    rw [totalSize]
    rcases List.mem_cons.mp hp with rfl | hp
    · refine ⟨Nat.le_refl _, ?_, ?_⟩
      · show offset < offset + t.size
        omega
      · show offset + t.size ≤ _
        omega
    · have := ih (fun u hu => h u (List.mem_cons_of_mem t hu)) hp
      omega

/-- Moving tokens changes nothing but their spans. -/
theorem map_shift_layout (offset start : Nat) (ts : List Token) :
    (layout start ts).map (fun p => (p.1.shift offset, p.2)) = layout (start + offset) ts := by
  induction ts generalizing start with
  | nil => rfl
  | cons t ts ih =>
    rw [layout, layout, List.map_cons, ih]
    simp [Span.shift, Nat.add_right_comm]

/-- The tokens that stand within a stretch are those that it consists of. -/
theorem filter_layout {front mid back : List Token} (h : ∀ t ∈ front ++ (mid ++ back), t.text ≠ "") :
    (layout 0 (front ++ (mid ++ back))).filter (fun p =>
        Span.contains ⟨totalSize front, totalSize front + totalSize mid⟩ p.1) =
      layout (totalSize front) mid := by
  obtain ⟨hfront, hmid, hback⟩ : (∀ t ∈ front, t.text ≠ "") ∧ (∀ t ∈ mid, t.text ≠ "") ∧
      ∀ t ∈ back, t.text ≠ "" := by
    simpa only [List.forall_mem_append] using h
  have hwithin : ∀ p : Span × Token,
      Span.contains ⟨totalSize front, totalSize front + totalSize mid⟩ p.1 = true ↔
        totalSize front ≤ p.1.start ∧ p.1.stop ≤ totalSize front + totalSize mid := by
    simp [Span.contains]
  rw [layout_append, layout_append, List.filter_append, List.filter_append, Nat.zero_add,
    List.filter_eq_nil_iff.mpr, List.filter_eq_self.mpr, List.filter_eq_nil_iff.mpr,
    List.nil_append, List.append_nil]
  · intro p hp
    have := bounds_of_mem_layout hback hp
    rw [hwithin]
    omega
  · intro p hp
    have := bounds_of_mem_layout hmid hp
    rw [hwithin]
    omega
  · intro p hp
    have := bounds_of_mem_layout hfront hp
    rw [hwithin]
    omega

end Token

/-! ## Texts that are cut out -/

/-- A text is parted wherever its tokens are. -/
theorem exists_split_of_lex {source : String} {front back : List Token}
    (h : lex source = front ++ back) :
    ∃ before after, source = before ++ after ∧ lex before = front ∧ lex after = back := by
  obtain ⟨xs, ys, hsplit, hxs, hys⟩ := Lexer.exists_split_of_tokensOf h
  refine ⟨String.ofList xs, String.ofList ys, ?_, ?_, ?_⟩
  · rw [← String.ofList_append, ← hsplit, String.ofList_toList]
  · rw [Lexer.lex_eq_tokensOf, String.toList_ofList, hxs]
  · rw [Lexer.lex_eq_tokensOf, String.toList_ofList, hys]

/-- Tokens between others of a text are the tokens of their own text. -/
theorem lex_join_of_lex {source : String} {front mid back : List Token}
    (h : lex source = front ++ (mid ++ back)) : lex (String.join (mid.map Token.text)) = mid := by
  obtain ⟨before, rest, -, -, hrest⟩ := exists_split_of_lex h
  obtain ⟨piece, after, -, hpiece, -⟩ := exists_split_of_lex hrest
  have htext := join_lex piece
  rw [hpiece] at htext
  rwa [htext]

/-- The text of a token is split into that token. -/
theorem lex_text_of_mem_lex {source : String} {t : Token} (ht : t ∈ lex source) :
    lex t.text = [t] := by
  obtain ⟨front, back, hsplit⟩ := List.append_of_mem ht
  obtain ⟨before, rest, -, -, hrest⟩ := exists_split_of_lex hsplit
  rw [← List.singleton_append] at hrest
  obtain ⟨piece, after, -, hpiece, -⟩ := exists_split_of_lex hrest
  have htext := join_lex piece
  rw [hpiece] at htext
  obtain rfl : t.text = piece := by simpa using htext
  exact hpiece

/-- The tokens make up the size of the text. -/
theorem totalSize_lex (source : String) : Token.totalSize (lex source) = source.utf8ByteSize := by
  rw [Token.totalSize_eq, join_lex]

/-- What stands between two tokens of a text, or between a token and an end, is split into the
    tokens that stand there, but for the offset of the piece in their spans; and so every token, an
    unfinished string or comment like any other, is found again in its own text. -/
theorem lex_piece {source : String} {a b : Nat} (ha : a ∈ Token.boundaries 0 (lex source))
    (hb : b ∈ Token.boundaries 0 (lex source)) (hab : a ≤ b) :
    (∃ before piece after, source = before ++ (piece ++ after) ∧
      before.utf8ByteSize = a ∧ (before ++ piece).utf8ByteSize = b ∧
      (Token.layout 0 (lex piece)).map (fun p => (p.1.shift a, p.2)) =
        (Token.layout 0 (lex source)).filter fun p => Span.contains ⟨a, b⟩ p.1) ∧
    ∀ t ∈ lex source, lex t.text = [t] := by
  have hne : ∀ t ∈ lex source, t.text ≠ "" := fun t ht => (proper_of_mem_lex ht).text_ne
  constructor
  · obtain ⟨front, mid, back, hsplit, rfl, rfl⟩ := Token.exists_between hne ha hb hab
    obtain ⟨before, rest, rfl, rfl, hrest⟩ := exists_split_of_lex hsplit
    obtain ⟨piece, after, rfl, rfl, rfl⟩ := exists_split_of_lex hrest
    refine ⟨before, piece, after, rfl, (totalSize_lex before).symm, ?_, ?_⟩
    · rw [String.utf8ByteSize_append, totalSize_lex, totalSize_lex]
    · rw [hsplit] at hne
      rw [hsplit, Token.filter_layout hne, Token.map_shift_layout, Nat.zero_add]
  · exact fun t => lex_text_of_mem_lex

/-- A piece between two marks of a run and the end of an unfinished string. -/
theorem lex_piece_marks :
    (∃ before piece after, "a?!> \"b" = before ++ (piece ++ after) ∧
      before.utf8ByteSize = 2 ∧ (before ++ piece).utf8ByteSize = 7 ∧
      (Token.layout 0 (lex piece)).map (fun p => (p.1.shift 2, p.2)) =
        (Token.layout 0 (lex "a?!> \"b")).filter fun p => Span.contains ⟨2, 7⟩ p.1) ∧
    ∀ t ∈ lex "a?!> \"b", lex t.text = [t] :=
  lex_piece (by decide +kernel) (by decide +kernel) (by decide)

end SwiftOutline
