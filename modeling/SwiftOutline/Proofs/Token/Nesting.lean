/-
  SwiftOutline.Proofs.Token.Nesting

  Which texts end a block comment. The scanner counts how many comments are open;
  what it passes over is described without a counter, by a grammar in which a
  comment inside a comment is a derivation inside a derivation. A count of `depth`
  stands for `depth` further derivations that are still to come.
-/
import SwiftOutline.Proofs.Token.Locality

namespace SwiftOutline

open Utf8

/-! ## Comments as derivations -/

namespace Comment

/-- What opens a block comment. -/
def opening : List UInt8 := [byte '/', byte '*']

/-- What closes a block comment. -/
def closing : List UInt8 := [byte '*', byte '/']

/-- What stands behind the opening of a block comment, up to its end: the end itself, or a comment
    and the rest behind it, or a byte at which neither of the two pairs stands and the rest behind
    it. -/
inductive Rest : List UInt8 → Prop where
  | close : Rest closing
  | nested {u w : List UInt8} (inner : Rest u) (rest : Rest w) : Rest (opening ++ u ++ w)
  | byte {c : UInt8} {w : List UInt8} (hopen : ¬ opening <+: c :: w) (hclose : ¬ closing <+: c :: w)
      (rest : Rest w) : Rest (c :: w)

/-- The rests of `depth` comments that are open in another one, and the rest of that one. -/
def Rests : (depth : Nat) → List UInt8 → Prop
  | 0, w => Rest w
  | depth + 1, w => ∃ u v, w = u ++ v ∧ Rest u ∧ Rests depth v

variable {depth i j : Nat} {a b : UInt8} {bs w after : List UInt8}

theorem Rest.exists_cons (h : Rest w) : ∃ a b v, w = a :: b :: v := by
  cases h with
  | close => exact ⟨_, _, _, rfl⟩
  | nested inner rest => exact ⟨_, _, _, rfl⟩
  | @byte c w _ _ rest =>
    cases w with
    | nil => cases rest
    | cons b v => exact ⟨c, b, v, rfl⟩

theorem opening_prefix_iff :
    opening <+: a :: b :: bs ↔ (a == byte '/' && b == byte '*') = true := by
  simp only [opening, List.cons_prefix_cons, List.nil_prefix, and_true, Bool.and_eq_true, beq_iff_eq]
  exact and_congr eq_comm eq_comm

theorem closing_prefix_iff :
    closing <+: a :: b :: bs ↔ (a == byte '*' && b == byte '/') = true := by
  simp only [closing, List.cons_prefix_cons, List.nil_prefix, and_true, Bool.and_eq_true, beq_iff_eq]
  exact and_congr eq_comm eq_comm

/-! ## The scanner -/

theorem rest?_opening (depth : Nat) (bs : List UInt8) :
    rest? depth (opening ++ bs) = rest? (depth + 1) bs :=
  if_pos (by decide)

theorem rest?_closing (bs : List UInt8) : rest? 0 (closing ++ bs) = some bs :=
  (if_neg (by decide)).trans (if_pos (by decide))

theorem rest?_closing_succ (depth : Nat) (bs : List UInt8) :
    rest? (depth + 1) (closing ++ bs) = rest? depth bs :=
  (if_neg (by decide)).trans (if_pos (by decide))

theorem rest?_byte (hopen : ¬ opening <+: a :: b :: bs) (hclose : ¬ closing <+: a :: b :: bs) :
    rest? depth (a :: b :: bs) = rest? depth (b :: bs) := by
  rw [opening_prefix_iff] at hopen
  rw [closing_prefix_iff] at hclose
  exact (if_neg hopen).trans (if_neg hclose)

/-- What the scanner does behind a rest: it is done, or one comment less is open. -/
theorem Rest.rest?_append (h : Rest w) (after : List UInt8) :
    rest? 0 (w ++ after) = some after ∧
      ∀ depth, rest? (depth + 1) (w ++ after) = rest? depth after := by
  induction h generalizing after with
  | close => exact ⟨rest?_closing after, fun depth => rest?_closing_succ depth after⟩
  | nested _ _ ihinner ihrest =>
    simp only [List.append_assoc, rest?_opening, (ihinner _).2]
    exact ihrest after
  | @byte c w hopen hclose rest ih =>
    -- both pairs are judged by two bytes, and the rest has these
    obtain ⟨a, b, v, rfl⟩ := rest.exists_cons
    have hopen' : ¬ opening <+: c :: a :: (b :: v ++ after) := by
      rwa [opening_prefix_iff] at hopen ⊢
    have hclose' : ¬ closing <+: c :: a :: (b :: v ++ after) := by
      rwa [closing_prefix_iff] at hclose ⊢
    have hstep : ∀ depth,
        rest? depth (c :: a :: b :: v ++ after) = rest? depth (a :: b :: v ++ after) :=
      fun depth => rest?_byte hopen' hclose'
    simp only [hstep]
    exact ih after

/-- The first of some rests can be replaced. -/
theorem Rests.exists_rest (h : Rests depth w) :
    ∃ u v, w = u ++ v ∧ Rest u ∧ ∀ u', Rest u' → Rests depth (u' ++ v) := by
  cases depth with
  | zero => exact ⟨w, [], (List.append_nil w).symm, h, fun u' hu' => by rwa [List.append_nil]⟩
  | succ depth =>
    obtain ⟨u, v, rfl, hu, hv⟩ := h
    exact ⟨u, v, rfl, hu, fun u' hu' => ⟨u', v, rfl, hu', hv⟩⟩

/-- Where the scanner ends, it has passed over the rests of all comments that were open. -/
theorem exists_rests_of_rest? (h : rest? depth bs = some after) :
    ∃ w, bs = w ++ after ∧ Rests depth w := by
  induction depth, bs using rest?.induct with
  | case1 depth a b bs hopen ih =>
    -- the comment that is opened here ends first, and the one around it is read on behind it
    unfold rest? at h
    rw [if_pos hopen] at h
    obtain ⟨w, rfl, u, v, rfl, hu, hv⟩ := ih h
    obtain ⟨x, y, rfl, hx, hgo⟩ := hv.exists_rest
    obtain ⟨rfl, rfl⟩ : a = byte '/' ∧ b = byte '*' := by simpa using hopen
    refine ⟨opening ++ u ++ x ++ y, ?_, hgo _ (.nested hu hx)⟩
    simp [opening]
  | case2 a b bs hopen hclose =>
    unfold rest? at h
    rw [if_neg hopen, if_pos hclose] at h
    obtain rfl := Option.some.inj h
    obtain ⟨rfl, rfl⟩ : a = byte '*' ∧ b = byte '/' := by simpa using hclose
    exact ⟨closing, rfl, .close⟩
  | case3 a b bs hopen hclose depth ih =>
    unfold rest? at h
    rw [if_neg hopen, if_pos hclose] at h
    obtain ⟨w, rfl, hw⟩ := ih h
    obtain ⟨rfl, rfl⟩ : a = byte '*' ∧ b = byte '/' := by simpa using hclose
    exact ⟨closing ++ w, rfl, closing, w, rfl, .close, hw⟩
  | case4 depth a b bs hopen hclose ih =>
    unfold rest? at h
    rw [if_neg hopen, if_neg hclose] at h
    obtain ⟨w, hbs, hw⟩ := ih h
    obtain ⟨u, v, rfl, hu, hgo⟩ := hw.exists_rest
    obtain ⟨b', c, u', rfl⟩ := hu.exists_cons
    obtain ⟨rfl, -⟩ := List.cons.inj hbs
    refine ⟨(a :: b :: c :: u') ++ v, by rw [hbs]; rfl, hgo _ (.byte ?_ ?_ hu)⟩
    · rwa [opening_prefix_iff]
    · rwa [closing_prefix_iff]
  | case5 bs depth hshort =>
    rw [rest?] at h
    · cases h
    · exact hshort

/-- The scanner ends behind the rest of the comment, and nowhere else. -/
theorem rest?_eq_some_iff : rest? 0 bs = some after ↔ ∃ w, bs = w ++ after ∧ Rest w := by
  refine ⟨exists_rests_of_rest?, ?_⟩
  rintro ⟨w, rfl, hw⟩
  exact (hw.rest?_append after).1

theorem Rest.rest?_eq_drop (h : Rest (bs.take i)) : rest? 0 bs = some (bs.drop i) :=
  rest?_eq_some_iff.mpr ⟨bs.take i, (List.take_append_drop i bs).symm, h⟩

/-- Not two beginnings of a text are the rest of a comment. -/
theorem Rest.take_inj (h : Rest (bs.take i)) (h' : Rest (bs.take j)) (hi : i ≤ bs.length)
    (hj : j ≤ bs.length) : i = j := by
  have hdrop : bs.drop i = bs.drop j :=
    Option.some.inj (h.rest?_eq_drop.symm.trans h'.rest?_eq_drop)
  have hlength := congrArg List.length hdrop
  rw [List.length_drop, List.length_drop] at hlength
  omega

end Comment

/-! ## Tokens -/

namespace Lexer

variable {cs : List Char} {after : List UInt8}

/-- A comment that ends is the token up to there. -/
theorem tokensOf_comment (h : Comment.rest? 0 (encode cs) = some after) :
    ∃ u v, encode cs = encode u ++ after ∧
      tokensOf ('/' :: '*' :: cs) = ⟨.blockComment, String.ofList ('/' :: '*' :: u)⟩ :: v := by
  obtain ⟨n, hchars, hn⟩ := charsIn?_of_followsAscii (Comment.followsAscii_of_rest? h)
  have hsplit : encode cs = encode (cs.take n) ++ encode (cs.drop n) := by
    rw [← encode_append, List.take_append_drop]
  have hafter : encode (cs.drop n) = after := by
    obtain ⟨w, hw, -⟩ := Comment.rest?_eq_some_iff.mp h
    have htaken := length_encode_take hchars
    rw [hw, List.length_append, Nat.add_sub_cancel] at htaken
    exact (List.append_inj (hsplit.symm.trans hw) htaken).2
  have htoken : token '/' ('*' :: cs.take n ++ cs.drop n) =
      some (.blockComment, ('*' :: cs.take n).length) := by
    rw [List.cons_append, List.take_append_drop, List.length_cons, List.length_take,
      Nat.min_eq_left hn, Nat.add_comm]
    show slash ('*' :: cs) = _
    simp [slash, h, hchars]
  refine ⟨cs.take n, tokensOf (cs.drop n), by rw [← hafter, hsplit], ?_⟩
  have htokens := tokensOf_of_kind htoken (by decide)
  rwa [List.cons_append, List.take_append_drop] at htokens

/-- A comment that does not end is one error up to the end of the text. -/
theorem tokensOf_open_comment (h : Comment.rest? 0 (encode cs) = none) :
    tokensOf ('/' :: '*' :: cs) = [⟨.error, String.ofList ('/' :: '*' :: cs)⟩] := by
  have htoken : token '/' ('*' :: cs ++ []) = some (.error, ('*' :: cs).length) := by
    rw [List.append_nil, List.length_cons, Nat.add_comm]
    show slash ('*' :: cs) = _
    simp [slash, h, charsIn?_all]
  have htokens := tokensOf_of_kind htoken (by decide)
  rwa [List.append_nil] at htokens

end Lexer

/-- Wherever a token begins with the opening of a block comment, it is a comment that ends behind
    as many bytes of the text `r` behind the opening as make up the rest of a comment. There is at
    most one such number; if there is none, all that is left of the text is one error. -/
theorem lex_blockComment_iff {source r : String} {front back : List Token}
    (hsplit : lex source = front ++ back)
    (hopen : String.join (back.map Token.text) = "/*" ++ r) :
    (∀ i ≤ (encode r.toList).length,
      (∃ t ts, back = t :: ts ∧ t.kind = .blockComment ∧
        encode t.text.toList = Comment.opening ++ (encode r.toList).take i) ↔
      Comment.Rest ((encode r.toList).take i)) ∧
    (∀ i j, i ≤ (encode r.toList).length → j ≤ (encode r.toList).length →
      Comment.Rest ((encode r.toList).take i) → Comment.Rest ((encode r.toList).take j) → i = j) ∧
    ((∀ i ≤ (encode r.toList).length, ¬ Comment.Rest ((encode r.toList).take i)) →
      back = [⟨.error, "/*" ++ r⟩]) := by
  obtain ⟨before, source', -, -, rfl⟩ := exists_split_of_lex hsplit
  rw [join_lex] at hopen
  have hlex : lex source' = Lexer.tokensOf ('/' :: '*' :: r.toList) := by
    rw [Lexer.lex_eq_tokensOf, hopen, String.toList_append]
    rfl
  have htext : "/*" ++ r = String.ofList ('/' :: '*' :: r.toList) := by
    rw [show '/' :: '*' :: r.toList = "/*".toList ++ r.toList from rfl, ← String.toList_append,
      String.ofList_toList]
  rw [hlex]
  refine ⟨fun i hi => ⟨?_, fun hrest => ?_⟩, fun i j hi hj h h' => h.take_inj h' hi hj,
    fun hnone => ?_⟩
  · rintro ⟨t, ts, hback, hkind, hbytes⟩
    cases hscan : Comment.rest? 0 (encode r.toList) with
    | none =>
      rw [Lexer.tokensOf_open_comment hscan] at hback
      obtain ⟨rfl, -⟩ := List.cons.inj hback
      cases hkind
    | some after =>
      obtain ⟨u, v, hu, htokens⟩ := Lexer.tokensOf_comment hscan
      obtain ⟨rfl, -⟩ := List.cons.inj (htokens.symm.trans hback)
      have htake : encode u = (encode r.toList).take i := by
        rw [String.toList_ofList] at hbytes
        exact (List.append_right_inj Comment.opening).mp hbytes
      obtain ⟨w, hw, hrest⟩ := Comment.rest?_eq_some_iff.mp hscan
      rw [← htake, List.append_cancel_right (hu.symm.trans hw)]
      exact hrest
  · have hscan := hrest.rest?_eq_drop
    obtain ⟨u, v, hu, htokens⟩ := Lexer.tokensOf_comment hscan
    refine ⟨_, v, htokens, rfl, ?_⟩
    have htake : encode u = (encode r.toList).take i :=
      List.append_cancel_right (hu.symm.trans (List.take_append_drop i _).symm)
    rw [String.toList_ofList, ← htake]
    rfl
  · have hscan : Comment.rest? 0 (encode r.toList) = none := by
      cases hscan : Comment.rest? 0 (encode r.toList) with
      | none => rfl
      | some after =>
        obtain ⟨w, hw, hrest⟩ := Comment.rest?_eq_some_iff.mp hscan
        refine absurd hrest ?_
        have htake : (encode r.toList).take w.length = w := by rw [hw, List.take_left]
        rw [← htake]
        exact hnone w.length (by rw [hw, List.length_append]; omega)
    rw [Lexer.tokensOf_open_comment hscan, htext]

/-- A comment in a comment, between a name and a name, with pairs that overlap. -/
theorem lex_blockComment_iff_overlapping :
    let source := "a/*/*/ */*/b"
    let back : List Token := [⟨.blockComment, "/*/*/ */*/"⟩, ⟨.ident, "b"⟩]
    lex source = [⟨.ident, "a"⟩] ++ back ∧
      String.join (back.map Token.text) = "/*" ++ "/*/ */*/b" ∧
      Comment.Rest ((encode "/*/ */*/b".toList).take 8) := by
  have hlex : lex "a/*/*/ */*/b" =
      [⟨.ident, "a"⟩] ++ [⟨.blockComment, "/*/*/ */*/"⟩, ⟨.ident, "b"⟩] := by
    decide +kernel
  refine ⟨hlex, rfl, ?_⟩
  refine ((lex_blockComment_iff hlex (r := "/*/ */*/b") rfl).1 8 (by decide)).mp ?_
  exact ⟨_, _, rfl, rfl, by decide⟩

end SwiftOutline
