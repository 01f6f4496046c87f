/-
  SwiftOutline.Proofs.Token.Utf8

  Where bytes and characters of a text meet. Bytes below 128 stand for
  themselves in UTF-8, so next to such a byte a text can be cut without cutting a
  character.
-/
import SwiftOutline.Token.Utf8

namespace SwiftOutline

namespace Utf8

/-! ## Encodings -/

@[simp] theorem encode_nil : encode [] = [] := rfl

theorem encode_cons (c : Char) (cs : List Char) :
    encode (c :: cs) = String.utf8EncodeChar c ++ encode cs := rfl

@[simp] theorem encode_append (xs ys : List Char) : encode (xs ++ ys) = encode xs ++ encode ys :=
  List.flatMap_append

theorem length_encode (text : String) : (encode text.toList).length = text.utf8ByteSize := by
  have hbytes : text.toByteArray = text.toList.utf8Encode := by
    rw [← String.toByteArray_ofList, String.ofList_toList]
  rw [String.utf8ByteSize, hbytes, List.utf8Encode, List.size_toByteArray]
  rfl

/-- A character of more than one byte has no byte below 128. -/
theorem le_of_mem_utf8EncodeChar {c : Char} {b : UInt8} (hc : 0x7f < c.val.toNat)
    (hb : b ∈ String.utf8EncodeChar c) : 0x80 ≤ b.toNat := by
  unfold String.utf8EncodeChar at hb
  dsimp only at hb
  rw [if_neg (by omega)] at hb
  -- the bytes of two, three and four byte encodings
  split at hb
  · simp only [List.mem_cons, List.not_mem_nil, or_false] at hb
    rcases hb with rfl | rfl <;> rw [UInt8.toNat_ofNat'] <;> omega
  · split at hb
    · simp only [List.mem_cons, List.not_mem_nil, or_false] at hb
      rcases hb with rfl | rfl | rfl <;> rw [UInt8.toNat_ofNat'] <;> omega
    · simp only [List.mem_cons, List.not_mem_nil, or_false] at hb
      rcases hb with rfl | rfl | rfl | rfl <;> rw [UInt8.toNat_ofNat'] <;> omega

/-- A byte below 128 in a text is a character, with characters on both sides. -/
theorem exists_split_of_ascii {cs : List Char} {pre post : List UInt8} {b : UInt8}
    (h : encode cs = pre ++ b :: post) (hb : b.toNat < 0x80) :
    ∃ xs c ys, cs = xs ++ c :: ys ∧ encode xs = pre ∧ encode [c] = [b] ∧ encode ys = post := by
  induction cs generalizing pre with
  | nil => simp at h
  | cons c cs ih =>
    rw [encode_cons] at h
    -- either the byte lies behind the first character, or within it
    rcases List.append_eq_append_iff.mp h with ⟨mid, hpre, hrest⟩ | ⟨mid, hchar, hrest⟩
    · obtain ⟨xs, d, ys, rfl, hxs, hd, hys⟩ := ih hrest
      exact ⟨c :: xs, d, ys, rfl, by rw [encode_cons, hxs, hpre], hd, hys⟩
    · cases mid with
      | nil =>
        have htail : encode cs = [] ++ b :: post := hrest.symm
        obtain ⟨xs, d, ys, rfl, hxs, hd, hys⟩ := ih htail
        exact ⟨c :: xs, d, ys, rfl, by simp [encode_cons, hxs, hchar], hd, hys⟩
      | cons b' mid =>
        obtain ⟨rfl, hpost⟩ := List.cons.inj hrest
        have hascii : c.val.toNat ≤ 0x7f := by
          rcases Nat.lt_or_ge 0x7f c.val.toNat with hc | hc
          · have hmem : b ∈ String.utf8EncodeChar c := by rw [hchar]; simp
            have := le_of_mem_utf8EncodeChar hc hmem
            omega
          · exact hc
        have hone : String.utf8EncodeChar c = [UInt8.ofNat c.val.toNat] := by
          unfold String.utf8EncodeChar
          exact if_pos hascii
        rw [hone] at hchar
        obtain ⟨rfl, hb', rfl⟩ : pre = [] ∧ UInt8.ofNat c.val.toNat = b ∧ mid = [] := by
          cases pre with
          | nil => simpa using hchar
          | cons p pre => simp at hchar
        refine ⟨[], c, cs, rfl, rfl, ?_, ?_⟩
        · rw [encode_cons, hone, hb', encode_nil, List.append_nil]
        · simpa using hpost.symm

/-- `after` is what follows some byte with the property `p` in `bs`. -/
def Follows (p : UInt8 → Prop) (after bs : List UInt8) : Prop :=
  ∃ pre b, bs = pre ++ b :: after ∧ p b

/-- `after` is what follows some byte below 128 in `bs`. -/
def FollowsAscii (after bs : List UInt8) : Prop := Follows (fun b => b.toNat < 0x80) after bs

theorem Follows.cons {p : UInt8 → Prop} {after bs : List UInt8} (b : UInt8)
    (h : Follows p after bs) : Follows p after (b :: bs) := by
  obtain ⟨pre, d, rfl, hd⟩ := h
  exact ⟨b :: pre, d, rfl, hd⟩

theorem Follows.mono {p p' : UInt8 → Prop} {after bs : List UInt8} (h : Follows p after bs)
    (hp : ∀ b, p b → p' b) : Follows p' after bs := by
  obtain ⟨pre, b, rfl, hb⟩ := h
  exact ⟨pre, b, rfl, hp b hb⟩

/-! ## Counting characters -/

/-- As many bytes as some characters at the head of a text have make up these characters. -/
theorem charsIn?_encode (xs ys : List Char) :
    charsIn? (encode xs).length (xs ++ ys) = some xs.length := by
  induction xs with
  | nil => cases ys <;> rfl
  | cons c xs ih =>
    have hsize : (encode (c :: xs)).length = c.utf8Size + (encode xs).length := by
      rw [encode_cons, List.length_append, String.length_utf8EncodeChar]
    have hpos : 0 < c.utf8Size := Char.utf8Size_pos c
    obtain ⟨n, hn⟩ : ∃ n, (encode (c :: xs)).length = n + 1 :=
      ⟨_, (Nat.sub_add_cancel (by omega)).symm⟩
    rw [hn, List.cons_append, charsIn?, if_pos (by omega)]
    rw [show n + 1 - c.utf8Size = (encode xs).length by omega, ih]
    rfl

/-- Where a byte below 128 has just been read, whole characters have been. -/
theorem charsIn?_of_followsAscii {cs : List Char} {after : List UInt8}
    (h : FollowsAscii after (encode cs)) :
    ∃ n, charsIn? ((encode cs).length - after.length) cs = some n ∧ n ≤ cs.length := by
  obtain ⟨pre, b, hsplit, hb⟩ := h
  obtain ⟨xs, c, ys, rfl, -, -, rfl⟩ := exists_split_of_ascii hsplit hb
  have hmove : xs ++ c :: ys = (xs ++ [c]) ++ ys := by simp
  have hlen :
      (encode (xs ++ c :: ys)).length - (encode ys).length = (encode (xs ++ [c])).length := by
    rw [hmove, encode_append, List.length_append]
    omega
  refine ⟨(xs ++ [c]).length, ?_, by simp⟩
  rw [hlen, hmove]
  exact charsIn?_encode _ _

/-- Bytes up to one below 128, or up to the end, are whole characters. -/
theorem charsIn?_takeWhile {b : UInt8} (hb : b.toNat < 0x80) (cs : List Char) :
    ∃ n, charsIn? ((encode cs).takeWhile (· != b)).length cs = some n ∧ n ≤ cs.length := by
  have hsplit := (List.takeWhile_append_dropWhile (p := (· != b)) (l := encode cs)).symm
  cases hd : (encode cs).dropWhile (· != b) with
  | nil =>
    rw [hd, List.append_nil] at hsplit
    rw [← hsplit]
    have hall := charsIn?_encode cs []
    rw [List.append_nil] at hall
    exact ⟨cs.length, hall, Nat.le_refl _⟩
  | cons d rest =>
    have hstop : d = b := by
      have hhead := List.head?_dropWhile_not (· != b) (encode cs)
      rw [hd] at hhead
      simpa using hhead
    rw [hd, hstop] at hsplit
    obtain ⟨xs, c, ys, rfl, hxs, -, -⟩ := exists_split_of_ascii hsplit hb
    rw [← hxs]
    exact ⟨xs.length, charsIn?_encode _ _, by simp⟩

/-- All bytes are all characters. -/
theorem charsIn?_all (cs : List Char) : charsIn? (encode cs).length cs = some cs.length := by
  have h := charsIn?_encode cs []
  rwa [List.append_nil] at h

end Utf8

end SwiftOutline
