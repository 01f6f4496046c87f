/-
  SwiftOutline.Proofs.Token.Closing

  Closing parentheses behind a text. They are tokens of their own and leave those
  of the text as they are, unless the text ends in something that would go on to
  its end whatever follows: a line comment, or a literal or comment that is not
  closed.
-/
import SwiftOutline.Proofs.Token.Joining

namespace SwiftOutline

open Utf8

/-! ## Ends of comments and string literals -/

/-- Behind a byte that is no closing parenthesis, there are at least as many bytes left as there are
    such parentheses at the end. -/
theorem Utf8.Follows.length_le {p : UInt8 → Prop} {after bs ds : List UInt8}
    (h : Follows p after (bs ++ ds)) (hp : ¬ p (byte ')')) (hds : ∀ d ∈ ds, d = byte ')') :
    ds.length ≤ after.length := by
  obtain ⟨pre, b, hsplit, hb⟩ := h
  have hmem : b ∉ ds := fun hb' => hp (hds b hb' ▸ hb)
  rcases List.append_eq_append_iff.mp hsplit with ⟨mid, -, hmid⟩ | ⟨mid, -, hmid⟩
  · exact absurd (by rw [hmid]; simp) hmem
  · cases mid with
    | nil => exact absurd (by rw [show ds = b :: after from hmid.symm]; simp) hmem
    | cons d mid =>
      obtain rfl : after = mid ++ ds := (List.cons.inj hmid).2
      rw [List.length_append]
      exact Nat.le_add_left _ _

namespace Quote

variable {q : Quote} {top : Frame} {below : List Frame} {b : UInt8} {bs after : List UInt8}
  {more : Nat}

/-- The outermost frame is the body of a literal. -/
def Bottomed (top : Frame) (below : List Frame) : Prop :=
  ∃ q, (top :: below).getLast? = some (.body q)

theorem Bottomed.of_move_go {top' : Frame} {below' : List Frame} (h : Bottomed top below)
    (hmove : move top below b bs = .go more top' below') : Bottomed top' below' := by
  cases top with
  | body q =>
    rw [move] at hmove
    unfold moveBody at hmove
    split at hmove
    · cases hmove
    split at hmove
    · split at hmove
      · obtain ⟨-, rfl, rfl⟩ := Move.go.inj hmove
        exact h
      · obtain ⟨-, rfl, rfl⟩ := Move.go.inj hmove
        exact h
    split at hmove
    · cases below with
      | nil => cases hmove
      | cons f fs =>
        obtain ⟨-, rfl, rfl⟩ := Move.go.inj hmove
        exact h
    · obtain ⟨-, rfl, rfl⟩ := Move.go.inj hmove
      exact h
  | code opened =>
    have hcode : ∀ opened', Bottomed (.code opened') below := by
      intro opened'
      obtain ⟨q, hq⟩ := h
      cases below with
      | nil => cases hq
      | cons f fs => exact ⟨q, hq⟩
    rw [move] at hmove
    unfold moveCode at hmove
    split at hmove
    · obtain ⟨-, rfl, rfl⟩ := Move.go.inj hmove
      exact hcode _
    split at hmove
    · cases opened with
      | succ opened =>
        obtain ⟨-, rfl, rfl⟩ := Move.go.inj hmove
        exact hcode _
      | zero =>
        cases below with
        | nil => cases hmove
        | cons f fs =>
          obtain ⟨-, rfl, rfl⟩ := Move.go.inj hmove
          exact h
    split at hmove
    · split at hmove <;>
      · obtain ⟨-, rfl, rfl⟩ := Move.go.inj hmove
        exact h
    · obtain ⟨-, rfl, rfl⟩ := Move.go.inj hmove
      exact h

theorem follows_of_move_finish (h : Bottomed top below)
    (hmove : move top below b bs = .finish more) : Follows IsDelimiter (bs.drop more) (b :: bs) := by
  cases top with
  | body q =>
    rw [move] at hmove
    unfold moveBody at hmove
    split at hmove
    · cases hmove
    split at hmove
    · split at hmove <;> cases hmove
    split at hmove
    · next hcloses =>
      cases below with
      | nil =>
        obtain rfl := Move.finish.inj hmove
        have hend := follows_of_closes hcloses
        rwa [show q.width + q.pounds = (q.width - 1 + q.pounds) + 1 by
          have := q.width_pos; omega, List.drop_succ_cons] at hend
      | cons f fs => cases hmove
    · cases hmove
  | code opened =>
    rw [move] at hmove
    unfold moveCode at hmove
    split at hmove
    · cases hmove
    split at hmove
    · cases opened with
      | succ opened => cases hmove
      | zero =>
        cases below with
        | nil =>
          -- no interpolation is outermost
          obtain ⟨q, hq⟩ := h
          cases hq
        | cons f fs => cases hmove
    split at hmove
    · split at hmove <;> cases hmove
    · cases hmove

/-- A literal ends behind a delimiter, and no parenthesis is one. -/
theorem follows_of_scan {skip : Nat} (h : scan skip top below bs = some after)
    (hbottom : Bottomed top below) : Follows IsDelimiter after bs := by
  induction bs generalizing skip top below with
  | nil => simp [scan] at h
  | cons b bs ih =>
    cases skip with
    | succ skip =>
      rw [scan] at h
      exact (ih h hbottom).cons b
    | zero =>
      rw [scan_cons] at h
      split at h
      · cases h
      · next hmove =>
        obtain rfl := Option.some.inj h
        exact follows_of_move_finish hbottom hmove
      · next hmove => exact (ih h (hbottom.of_move_go hmove)).cons b

theorem follows_of_rest? (h : q.rest? bs = some after) : Follows IsDelimiter after bs :=
  follows_of_scan h ⟨q, rfl⟩

end Quote

/-! ## Matches in front of closing parentheses -/

namespace Lexer

variable {c : Char} {cs ds : List Char} {k : TokenKind} {n : Nat} {p : Char → Bool}

section Closers

variable (hds : ∀ d ∈ ds, d = ')')

include hds

theorem encode_closers : ∀ b ∈ encode ds, b = byte ')' := by
  intro b hb
  obtain ⟨d, hd, hb⟩ := List.mem_flatMap.mp hb
  rw [hds d hd] at hb
  exact List.mem_singleton.mp hb

theorem separates_closers : Separates ds := by
  cases ds with
  | nil => exact .nil
  | cons d ds =>
    obtain rfl := hds d List.mem_cons_self
    exact .cons (by decide) (by decide) (by decide) (by decide) ds

variable (cs) in
/-- A run of characters of a class without parentheses ends in front of them. -/
theorem length_takeWhile_closers_le (hp : p ')' = false) :
    ((cs ++ ds).takeWhile p).length ≤ cs.length :=
  length_takeWhile_append_le cs fun d hd => by rw [hds d (List.mem_of_mem_head? hd), hp]

/-! ### Literals and comments -/

/-- A literal that goes on into the parentheses is not closed, and takes up all of the text. -/
theorem string_of_closers {q : Quote} {opening : Nat}
    (h : string q opening (cs ++ ds) = some (k, n)) (hn : opening + cs.length < n) :
    string q opening cs = some (.error, opening + cs.length) := by
  have hcrossing := string_of_crossing h hn
  unfold string at h ⊢
  dsimp only at h ⊢
  cases hrest : q.rest? (encode (cs ++ ds)) with
  | some after =>
    simp only [hrest, Option.bind_eq_bind, Option.bind_eq_some_iff, Option.pure_def,
      Option.some.injEq, Prod.mk.injEq] at h
    obtain ⟨m, hm, -, rfl⟩ := h
    rw [encode_append] at hrest
    have hafter := (Quote.follows_of_rest? hrest).length_le
      (by rw [Quote.IsDelimiter]; decide) (encode_closers hds)
    have hle := le_of_charsIn?_append hm (by rw [encode_append, List.length_append]; omega)
    omega
  | none =>
    have hnone : q.rest? (encode cs) = none := hcrossing
    simp only [hrest, Option.bind_eq_bind, Option.bind_eq_some_iff, Option.pure_def,
      Option.some.injEq, Prod.mk.injEq] at h
    obtain ⟨m, hm, -, rfl⟩ := h
    have hline : (if q.multiline then encode cs
        else (encode cs).takeWhile (· != byte '\n')) = encode cs := by
      split
      · rfl
      next hsingle =>
      rw [if_neg hsingle, encode_append, List.takeWhile_append] at hm
      split at hm
      · next hall => exact (List.takeWhile_prefix _).eq_of_length hall
      · have hle := le_of_charsIn?_append hm (List.takeWhile_sublist _).length_le
        omega
    rw [hnone]
    dsimp only
    rw [hline, charsIn?_all]
    rfl

/-- The same, be the literal one with a quote or one with three. -/
theorem quote_of_closers {pounds : Nat} (opening : Nat)
    (h : (if opensMultiline (cs ++ ds) then string ⟨true, pounds⟩ (opening + 2) ((cs ++ ds).drop 2)
      else string ⟨false, pounds⟩ opening (cs ++ ds)) = some (k, n))
    (hn : opening + cs.length < n) :
    (if opensMultiline cs then string ⟨true, pounds⟩ (opening + 2) (cs.drop 2)
      else string ⟨false, pounds⟩ opening cs) = some (.error, opening + cs.length) := by
  rw [opensMultiline_append_eq (separates_closers hds)] at h
  split
  · next hopens =>
    have htwo := two_le_of_opensMultiline hopens
    rw [if_pos hopens, List.drop_append_of_le_length htwo] at h
    have hstring := string_of_closers hds h (by rw [List.length_drop]; omega)
    rwa [List.length_drop, show opening + 2 + (cs.length - 2) = opening + cs.length by omega]
      at hstring
  · next hopens =>
    rw [if_neg hopens] at h
    exact string_of_closers hds h hn

theorem slash_of_closers (h : slash (cs ++ ds) = some (k, n)) (hn : cs.length < n) :
    slash cs = some (.lineComment, cs.length) ∨ slash cs = some (.error, cs.length) := by
  cases cs with
  | nil =>
    -- no parenthesis makes a slash a comment
    have hzero : slash ds = some (.operator, 0) := by
      cases ds with
      | nil => rfl
      | cons d ds =>
        obtain rfl := hds d List.mem_cons_self
        rfl
    rw [List.nil_append, hzero] at h
    obtain ⟨-, rfl⟩ := Prod.mk.inj (Option.some.inj h)
    exact absurd hn (Nat.not_lt_zero _)
  | cons c cs =>
    rw [List.cons_append] at h
    rw [List.length_cons] at hn ⊢
    unfold slash at h
    split at h
    · next es hcons =>
      obtain ⟨rfl, rfl⟩ := List.cons.inj hcons
      obtain ⟨-, rfl⟩ := Prod.mk.inj (Option.some.inj h)
      rw [List.takeWhile_append] at hn
      split at hn
      · next hall =>
        left
        rw [slash, hall, Nat.add_comm]
      · have := length_takeWhile_le (fun c => !isLineEnd c) cs
        omega
    · next es hcons =>
      obtain ⟨rfl, rfl⟩ := List.cons.inj hcons
      dsimp only at h
      cases hrest : Comment.rest? 0 (encode (cs ++ ds)) with
      | some after =>
        simp only [hrest, Option.bind_eq_bind, Option.bind_eq_some_iff, Option.pure_def,
          Option.some.injEq, Prod.mk.injEq] at h
        obtain ⟨m, hm, -, rfl⟩ := h
        rw [encode_append] at hrest
        have hafter := (Comment.follows_of_rest? hrest).length_le (by decide) (encode_closers hds)
        have hle := le_of_charsIn?_append hm (by rw [encode_append, List.length_append]; omega)
        omega
      | none =>
        have hnone : Comment.rest? 0 (encode cs) = none := by
          cases hcomment : Comment.rest? 0 (encode cs) with
          | none => rfl
          | some rest =>
            rw [encode_append, Comment.rest?_append hcomment] at hrest
            cases hrest
        right
        rw [slash, hnone]
        dsimp only
        rw [charsIn?_all, Nat.add_comm cs.length]
        rfl
    · next es hcons =>
      obtain ⟨-, rfl⟩ := Prod.mk.inj (Option.some.inj h)
      omega
    · obtain ⟨-, rfl⟩ := Prod.mk.inj (Option.some.inj h)
      omega

theorem point_closers_le : (point (cs ++ ds)).2 ≤ cs.length := by
  have hstart : point ds = (.dot, 0) ∧ point ('.' :: ds) = (.dot, 0) := by
    cases ds with
    | nil => exact ⟨rfl, rfl⟩
    | cons d ds =>
      obtain rfl := hds d List.mem_cons_self
      exact ⟨rfl, rfl⟩
  match cs with
  | [] => exact Nat.le_of_eq (congrArg Prod.snd hstart.1)
  | [c] =>
    by_cases hpoint : c = '.'
    · subst hpoint
      rw [List.singleton_append, hstart.2]
      exact Nat.zero_le _
    · rw [point_eq]
      simp [hpoint]
  | c :: d :: cs =>
    rw [point_eq, List.length_cons, List.length_cons]
    repeat' split
    all_goals dsimp only; omega

theorem pound_of_closers (h : pound (cs ++ ds) = some (k, n)) (hn : cs.length < n) :
    pound cs = some (.error, cs.length) := by
  have hmore : ((cs ++ ds).takeWhile (· == '#')).length = (cs.takeWhile (· == '#')).length :=
    length_takeWhile_of_append (length_takeWhile_closers_le _ hds (by decide))
  have hle := length_takeWhile_le (· == '#') cs
  have hword := length_takeWhile_closers_le cs (p := isWordChar) hds (by decide)
  have hlength := List.length_drop (i := (cs.takeWhile (· == '#')).length) (l := cs)
  unfold pound at h ⊢
  dsimp only at h ⊢
  rw [hmore, List.drop_append_of_le_length hle] at h
  generalize (cs.takeWhile (· == '#')).length = more at h hle hlength ⊢
  have hshort : ∀ {b : Prop} [Decidable b], (if b then
      some (directiveKind (String.ofList ((cs ++ ds).takeWhile isWordChar)),
        ((cs ++ ds).takeWhile isWordChar).length) else some (.error, more)) ≠ some (k, n) := by
    intro b _ heq
    split at heq
    all_goals
      obtain ⟨-, rfl⟩ := Prod.mk.inj (Option.some.inj heq)
      omega
  cases hdrop : cs.drop more with
  | nil =>
    rw [hdrop, List.nil_append] at h
    cases ds with
    | nil =>
      obtain ⟨-, rfl⟩ := Prod.mk.inj (Option.some.inj h)
      omega
    | cons d ds =>
      obtain rfl := hds d List.mem_cons_self
      exact absurd h hshort
  | cons d es =>
    rw [hdrop, List.length_cons] at hlength
    rw [hdrop, List.cons_append] at h
    by_cases hquote : d = '"'
    · subst hquote
      have hstring := quote_of_closers hds (more + 1) h (by omega)
      rwa [show more + 1 + es.length = cs.length by omega] at hstring
    · split at h
      · next hcons => exact absurd (List.cons.inj hcons).1 hquote
      · exact absurd h hshort
      · next hcons => cases hcons

end Closers

/-! ### All matches -/

/-- What begins with `c` goes on to the end of the text, whatever follows. -/
def Swallows (c : Char) (cs : List Char) : Prop :=
  ∃ k, token c cs = some (k, cs.length) ∧ (k = .lineComment ∨ k = .error)

theorem swallows_of_token (hds : ∀ d ∈ ds, d = ')') (h : token c (cs ++ ds) = some (k, n))
    (hn : cs.length < n) : Swallows c cs := by
  have hrun : ∀ p : Char → Bool, p ')' = false → n = ((cs ++ ds).takeWhile p).length → False := by
    rintro p hp rfl
    exact absurd (length_takeWhile_closers_le _ hds hp) (Nat.not_le_of_lt hn)
  unfold Swallows
  unfold token at h ⊢
  by_cases hblank : isBlank c = true
  · rw [if_pos hblank] at h
    obtain ⟨-, hlength⟩ := Prod.mk.inj (Option.some.inj h)
    exact (hrun isBlank (by decide) hlength.symm).elim
  rw [if_neg hblank] at h ⊢
  by_cases hslash : (c == '/') = true
  · rw [if_pos hslash] at h ⊢
    rcases slash_of_closers hds h hn with hread | hread
    · exact ⟨_, hread, .inl rfl⟩
    · exact ⟨_, hread, .inr rfl⟩
  rw [if_neg hslash] at h ⊢
  by_cases hpoint : (c == '.') = true
  · rw [if_pos hpoint] at h
    have hle : (point (cs ++ ds)).2 ≤ cs.length := point_closers_le hds
    rw [Option.some.inj h] at hle
    exact absurd hn (Nat.not_lt_of_le hle)
  rw [if_neg hpoint] at h ⊢
  by_cases hpound : (c == '#') = true
  · rw [if_pos hpound] at h ⊢
    exact ⟨_, pound_of_closers hds h hn, .inr rfl⟩
  rw [if_neg hpound] at h ⊢
  by_cases hquote : (c == '"') = true
  · rw [if_pos hquote] at h ⊢
    have hread := quote_of_closers hds 0 h (by omega)
    rw [Nat.zero_add cs.length] at hread
    exact ⟨_, hread, .inr rfl⟩
  rw [if_neg hquote] at h ⊢
  by_cases htick : (c == '\x60') = true
  · rw [if_pos htick] at h ⊢
    have hread := Option.some.inj h
    have hn' : cs.length < (backtick (cs ++ ds)).2 := by rwa [hread]
    exact ⟨_, congrArg some (backtick_of_crossing hn'), .inr rfl⟩
  rw [if_neg htick] at h ⊢
  exfalso
  by_cases hdollar : (c == '$') = true
  · rw [if_pos hdollar] at h
    split at h
    · obtain ⟨-, rfl⟩ := Prod.mk.inj (Option.some.inj h)
      omega
    · next m hm =>
      obtain ⟨-, hlength⟩ := Prod.mk.inj (Option.some.inj h)
      exact hrun isWordChar (by decide) (by omega)
  rw [if_neg hdollar] at h
  by_cases hdigit : c.isDigit = true
  · rw [if_pos hdigit] at h
    have hle : (number c (cs ++ ds)).2 ≤ cs.length := number_append_le (separates_closers hds)
    rw [Option.some.inj h] at hle
    exact absurd hn (Nat.not_lt_of_le hle)
  rw [if_neg hdigit] at h
  by_cases hname : isNameStart c = true
  · rw [if_pos hname] at h
    obtain ⟨-, hlength⟩ := Prod.mk.inj (Option.some.inj h)
    exact hrun isNameChar (by decide) hlength.symm
  rw [if_neg hname] at h
  by_cases hop : isOperatorChar c = true
  · rw [if_pos hop] at h
    obtain ⟨-, hlength⟩ := Prod.mk.inj (Option.some.inj h)
    exact hrun isOperatorChar (by decide) hlength.symm
  · rw [if_neg hop] at h
    obtain ⟨-, rfl⟩ := Prod.mk.inj (Option.some.inj h)
    exact absurd hn (Nat.not_lt_zero _)

/-- Closing parentheses behind a text do not change its first match, unless this one takes up all
    that is left of a line or text. -/
theorem token_closers (hds : ∀ d ∈ ds, d = ')') (h : ¬ Swallows c cs) :
    token c (cs ++ ds) = token c cs := by
  obtain ⟨k, n, htoken, -⟩ := exists_match_token c (cs ++ ds)
  rcases Nat.lt_or_ge cs.length n with hn | hn
  · exact absurd (swallows_of_token hds htoken hn) h
  · rw [htoken, token_of_append htoken hn]

theorem tokensOf_replicate (n : Nat) :
    tokensOf (List.replicate n ')') = List.replicate n ⟨.rParen, ")"⟩ := by
  induction n with
  | zero => rfl
  | succ n ih =>
    rw [List.replicate_succ, List.replicate_succ, tokensOf_punctuation (by decide), ih]
    rfl

/-- The tokens of a text with closing parentheses behind it are its own and one for each of the
    parentheses, if the text does not end in a line comment or in an error. -/
theorem tokensOf_closers (hlast : ∀ t ∈ (tokensOf cs).getLast?, t.kind ≠ .lineComment ∧ t.kind ≠ .error)
    (n : Nat) :
    tokensOf (cs ++ List.replicate n ')') =
      tokensOf cs ++ List.replicate n ⟨.rParen, ")"⟩ := by
  -- the induction is on the length, since a match takes any number of characters
  induction hlen : cs.length using Nat.strongRecOn generalizing cs with
  | _ len ih =>
  subst hlen
  cases cs with
  | nil =>
    have hnil : tokensOf [] = [] := rfl
    rw [List.nil_append, hnil, List.nil_append, tokensOf_replicate]
  | cons c cs =>
    obtain ⟨k, m, htoken, hmatch⟩ := exists_match_token c cs
    obtain ⟨w, rest, rfl, rfl⟩ : ∃ w rest, cs = w ++ rest ∧ m = w.length :=
      ⟨cs.take m, cs.drop m, (List.take_append_drop m cs).symm, by
        rw [List.length_take, Nat.min_eq_left hmatch.length_le]⟩
    have htokens := tokensOf_of_token htoken
    rw [htokens] at hlast
    have hparts : ∀ k', k' = .lineComment ∨ k' = .error →
        Token.parts ⟨k', String.ofList (c :: w)⟩ = [⟨k', String.ofList (c :: w)⟩] := by
      intro k' hk'
      refine parts_of_kind ?_
      rcases hk' with rfl | rfl <;> exact nofun
    have hswallows : ¬ Swallows c (w ++ rest) := by
      rintro ⟨k', htoken', hk'⟩
      rw [htoken] at htoken'
      obtain ⟨rfl, hlength⟩ := Prod.mk.inj (Option.some.inj htoken')
      rw [List.length_append] at hlength
      obtain rfl : rest = [] := List.length_eq_zero_iff.mp (by omega)
      rw [hparts k hk'] at hlast
      have hkind := hlast _ rfl
      rcases hk' with rfl | rfl
      · exact hkind.1 rfl
      · exact hkind.2 rfl
    have hclosed : token c ((w ++ rest) ++ List.replicate n ')') = token c (w ++ rest) := token_closers
      (fun d hd => (List.mem_replicate.mp hd).2) hswallows
    rw [htoken, List.append_assoc] at hclosed
    have hlastrest : ∀ t ∈ (tokensOf rest).getLast?, t.kind ≠ .lineComment ∧ t.kind ≠ .error := by
      intro t ht
      refine hlast t ?_
      rw [List.getLast?_append, Option.mem_def.mp ht]
      rfl
    have hrest := ih rest.length (by rw [List.length_cons, List.length_append]; omega) hlastrest rfl
    rw [List.cons_append, List.append_assoc, tokensOf_of_token hclosed, hrest, htokens,
      List.append_assoc]

end Lexer

end SwiftOutline
