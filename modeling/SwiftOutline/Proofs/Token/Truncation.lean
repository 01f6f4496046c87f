/-
  SwiftOutline.Proofs.Token.Truncation

  Scanners on a text that is cut off. A scanner that ends within what is left of
  the text ends there all the same, wherever it looks ahead, since a delimiter
  that reaches across the cut would have been passed over before the end.
-/
import SwiftOutline.Proofs.Token.Scanner

namespace SwiftOutline

open Utf8

variable {xs ys after : List UInt8}

/-! ## Runs -/

/-- A run that ends in front of a cut is the same without what was cut off. -/
theorem List.takeWhile_append_of_length_le {α : Type} {p : α → Bool} {xs ys : List α}
    (h : ((xs ++ ys).takeWhile p).length ≤ xs.length) :
    (xs ++ ys).takeWhile p = xs.takeWhile p := by
  induction xs with
  | nil => exact List.length_eq_zero_iff.mp (Nat.le_zero.mp h)
  | cons x xs ih =>
    rw [List.cons_append] at h ⊢
    cases hx : p x with
    | false => rw [List.takeWhile_cons_of_neg (by simp [hx]), List.takeWhile_cons_of_neg (by simp [hx])]
    | true =>
      rw [List.takeWhile_cons_of_pos hx, List.length_cons, List.length_cons] at h
      rw [List.takeWhile_cons_of_pos hx, List.takeWhile_cons_of_pos hx,
        ih (Nat.le_of_succ_le_succ h)]

/-! ## Characters -/

namespace Utf8

variable {cs ds : List Char} {bytes n : Nat}

/-- As many bytes as make up some characters are the bytes of these characters. -/
theorem length_encode_take (h : charsIn? bytes cs = some n) :
    (encode (cs.take n)).length = bytes := by
  induction cs generalizing bytes n with
  | nil =>
    cases bytes with
    | zero => rw [List.take_nil, encode_nil, List.length_nil]
    | succ bytes => cases h
  | cons c cs ih =>
    cases bytes with
    | zero =>
      obtain rfl : 0 = n := Option.some.inj h
      rfl
    | succ bytes =>
      rw [charsIn?] at h
      split at h
      · next hsize =>
        obtain ⟨m, hm, rfl⟩ := Option.map_eq_some_iff.mp h
        rw [List.take_succ_cons, encode_cons, List.length_append, String.length_utf8EncodeChar,
          ih hm]
        omega
      · cases h

theorem charsIn?_of_append (h : charsIn? bytes (cs ++ ds) = some n) (hn : n ≤ cs.length) :
    charsIn? bytes cs = some n := by
  have hbytes := length_encode_take h
  rw [List.take_append_of_le_length hn] at hbytes
  have hchars := charsIn?_encode (cs.take n) (cs.drop n)
  rwa [List.take_append_drop, hbytes, List.length_take, Nat.min_eq_left hn] at hchars

/-- Characters in front of a cut have no more bytes than the text up to there. -/
theorem bytes_le_of_append (h : charsIn? bytes (cs ++ ds) = some n) (hn : n ≤ cs.length) :
    bytes ≤ (encode cs).length := by
  have hbytes := length_encode_take (charsIn?_of_append h hn)
  have hsplit := encode_append (cs.take n) (cs.drop n)
  rw [List.take_append_drop] at hsplit
  rw [hsplit, List.length_append]
  omega

end Utf8

/-! ## Comments -/

namespace Comment

variable {depth : Nat} {bs : List UInt8}

theorem length_le_of_rest? (h : rest? depth bs = some after) : after.length + 2 ≤ bs.length := by
  induction depth, bs using rest?.induct with
  | case1 depth a b bs hopen ih =>
    unfold rest? at h
    rw [if_pos hopen] at h
    have := ih h
    simp only [List.length_cons]
    omega
  | case2 a b bs hopen hclose =>
    unfold rest? at h
    rw [if_neg hopen, if_pos hclose] at h
    obtain rfl := Option.some.inj h
    exact Nat.le_refl _
  | case3 a b bs hopen hclose depth ih =>
    unfold rest? at h
    rw [if_neg hopen, if_pos hclose] at h
    have := ih h
    simp only [List.length_cons]
    omega
  | case4 depth a b bs hopen hclose ih =>
    unfold rest? at h
    rw [if_neg hopen, if_neg hclose] at h
    have := ih h
    rw [List.length_cons]
    omega
  | case5 bs depth hshort =>
    rw [rest?] at h
    · cases h
    · exact hshort

/-- A comment that ends in front of a cut ends there without what was cut off. -/
theorem exists_rest?_of_append (h : rest? depth (xs ++ ys) = some after)
    (hlength : ys.length ≤ after.length) :
    ∃ rest, rest? depth xs = some rest ∧ after = rest ++ ys := by
  induction depth, xs using rest?.induct with
  | case1 depth a b bs hopen ih =>
    rw [List.cons_append, List.cons_append] at h
    unfold rest? at h ⊢
    rw [if_pos hopen] at h ⊢
    exact ih h
  | case2 a b bs hopen hclose =>
    rw [List.cons_append, List.cons_append] at h
    unfold rest? at h ⊢
    rw [if_neg hopen, if_pos hclose] at h ⊢
    exact ⟨bs, rfl, (Option.some.inj h).symm⟩
  | case3 a b bs hopen hclose depth ih =>
    rw [List.cons_append, List.cons_append] at h
    unfold rest? at h ⊢
    rw [if_neg hopen, if_pos hclose] at h ⊢
    exact ih h
  | case4 depth a b bs hopen hclose ih =>
    rw [List.cons_append, List.cons_append] at h
    unfold rest? at h ⊢
    rw [if_neg hopen, if_neg hclose] at h ⊢
    exact ih h
  | case5 bs depth hshort =>
    -- the end of a comment takes two bytes
    have hle := length_le_of_rest? h
    rw [List.length_append] at hle
    rcases bs with _ | ⟨a, _ | ⟨b, bs⟩⟩
    · rw [List.length_nil] at hle
      omega
    · rw [List.length_singleton] at hle
      omega
    · exact (hshort a b bs rfl).elim

end Comment

/-! ## String literals -/

namespace Quote

variable {q : Quote} {c : Char} {n skip : Nat} {b : UInt8} {bs ds : List UInt8} {top : Frame}
  {below : List Frame}

/-! ### Delimiters -/

theorem length_le_of_leads (h : leads c n bs = true) : n ≤ bs.length := by
  induction n generalizing bs with
  | zero => exact Nat.zero_le _
  | succ n ih =>
    cases bs with
    | nil => exact nomatch h
    | cons b bs =>
      simp only [leads, Bool.and_eq_true] at h
      exact Nat.succ_le_succ (ih h.2)

/-- What stands at the head of a text depends on so many bytes only. -/
theorem leads_congr (hbytes : bs.take n = ds.take n) {m : Nat} (hm : m ≤ n) :
    leads c m bs = leads c m ds := by
  induction m generalizing n bs ds with
  | zero => rfl
  | succ m ih =>
    obtain ⟨n, rfl⟩ : ∃ k, n = k + 1 := ⟨n - 1, by omega⟩
    cases bs with
    | nil =>
      cases ds with
      | nil => rfl
      | cons d ds => exact nomatch hbytes
    | cons b bs =>
      cases ds with
      | nil => exact nomatch hbytes
      | cons d ds =>
        obtain rfl := (List.cons.inj hbytes).1
        show (_ && _) = (_ && _)
        rw [ih (List.cons.inj hbytes).2 (by omega)]

theorem leads_drop_congr (hbytes : bs.take n = ds.take n) {m k : Nat} (hm : m + k ≤ n) :
    leads c k (bs.drop m) = leads c k (ds.drop m) := by
  have hdrop := congrArg (List.drop m) hbytes
  rw [List.drop_take, List.drop_take] at hdrop
  exact leads_congr hdrop (by omega)

theorem closes_congr (hbytes : bs.take n = ds.take n) (h : q.width + q.pounds ≤ n) :
    q.closes bs = q.closes ds := by
  rw [closes, closes, leads_congr hbytes (by omega), leads_drop_congr hbytes h]

theorem length_le_of_closes (h : q.closes bs = true) : q.width + q.pounds ≤ bs.length := by
  simp only [closes, Bool.and_eq_true] at h
  have hwidth := length_le_of_leads h.1
  have hpounds := length_le_of_leads h.2
  rw [List.length_drop] at hpounds
  omega

/-- No escape closes a literal. -/
theorem not_closes_backslash (bs : List UInt8) : q.closes (byte '\\' :: bs) = false := by
  obtain ⟨w, hw⟩ : ∃ w, q.width = w + 1 := ⟨q.width - 1, by have := q.width_pos; omega⟩
  have hbyte : (byte '\\' == byte '"') = false := by decide
  rw [closes, hw, leads, hbyte, Bool.false_and, Bool.false_and]

/-! ### Steps -/

/-- What reading a byte of a literal leads to. -/
inductive Move where
  /-- The literal does not end. -/
  | stop
  /-- The literal ends behind some more bytes. -/
  | finish (more : Nat)
  /-- Behind some more bytes a frame is read on. -/
  | go (more : Nat) (top : Frame) (below : List Frame)

/-- Reads the byte `b` of a body, behind which stand the bytes `bs`. -/
def moveBody (q : Quote) (below : List Frame) (b : UInt8) (bs : List UInt8) : Move :=
  if b == byte '\n' && !q.multiline then .stop
  else if b == byte '\\' && q.escapes bs then
    if leads '(' 1 (bs.drop q.pounds) then .go (q.pounds + 1) (.code 0) (.body q :: below)
    else .go (q.pounds + 1) (.body q) below
  else if q.closes (b :: bs) then
    match below with
    | [] => .finish (q.width - 1 + q.pounds)
    | f :: fs => .go (q.width - 1 + q.pounds) f fs
  else .go 0 (.body q) below

/-- Reads the byte `b` of an interpolation, behind which stand the bytes `bs`. -/
def moveCode (opened : Nat) (below : List Frame) (b : UInt8) (bs : List UInt8) : Move :=
  if b == byte '(' then .go 0 (.code (opened + 1)) below
  else if b == byte ')' then
    match opened, below with
    | opened + 1, below => .go 0 (.code opened) below
    | 0, [] => .finish 0
    | 0, f :: fs => .go 0 f fs
  else if b == byte '"' then
    if leads '"' 2 bs then .go 2 (.body ⟨true, 0⟩) (.code opened :: below)
    else .go 0 (.body ⟨false, 0⟩) (.code opened :: below)
  else .go 0 (.code opened) below

/-- Reads the byte `b`, behind which stand the bytes `bs`. -/
def move : (top : Frame) → (below : List Frame) → (b : UInt8) → (bs : List UInt8) → Move
  | .body q => moveBody q
  | .code opened => moveCode opened

/-- Scanning goes from step to step. -/
theorem scan_cons (top : Frame) (below : List Frame) (b : UInt8) (bs : List UInt8) :
    scan 0 top below (b :: bs) =
      match move top below b bs with
      | .stop => none
      | .finish more => some (bs.drop more)
      | .go more top below => scan more top below bs := by
  cases top with
  | body q =>
    rw [scan.eq_def, move]
    unfold moveBody
    dsimp only
    split
    · rfl
    split
    · split <;> rfl
    split
    · cases below <;> rfl
    · rfl
  | code opened =>
    rw [scan.eq_def, move]
    unfold moveCode
    dsimp only
    split
    · rfl
    split
    · cases opened <;> cases below <;> rfl
    split
    · split <;> rfl
    · rfl

/-! ### Frames -/

/-- The fewest bytes that end a frame. -/
def Frame.least : Frame → Nat
  | .body q => q.width + q.pounds
  | .code _ => 1

/-- The fewest bytes that end some frames. -/
def leastAll : List Frame → Nat
  | [] => 0
  | f :: fs => f.least + leastAll fs

/-- The fewest bytes that end a frame and those that enclose it. -/
def leastOf (top : Frame) (below : List Frame) : Nat := top.least + leastAll below

theorem leastOf_cons (f g : Frame) (fs : List Frame) :
    leastOf f (g :: fs) = f.least + leastOf g fs := rfl

theorem leastOf_pos (top : Frame) (below : List Frame) : 0 < leastOf top below := by
  cases top with
  | body q =>
    have := q.width_pos
    simp only [leastOf, Frame.least]
    omega
  | code opened =>
    simp only [leastOf, Frame.least]
    omega

/-- A step passes over no more than what ends the frames that it ends. -/
theorem leastOf_le_of_move_go {more : Nat} {top' : Frame} {below' : List Frame}
    (h : move top below b bs = .go more top' below') :
    leastOf top below ≤ leastOf top' below' + more + 1 := by
  cases top with
  | body q =>
    have hwidth := q.width_pos
    rw [move] at h
    unfold moveBody at h
    split at h
    · exact nomatch h
    split at h
    · split at h
      · obtain ⟨rfl, rfl, rfl⟩ := Move.go.inj h
        rw [leastOf_cons]
        omega
      · obtain ⟨rfl, rfl, rfl⟩ := Move.go.inj h
        omega
    split at h
    · cases below with
      | nil => exact nomatch h
      | cons f fs =>
        obtain ⟨rfl, rfl, rfl⟩ := Move.go.inj h
        rw [leastOf_cons, Frame.least]
        omega
    · obtain ⟨rfl, rfl, rfl⟩ := Move.go.inj h
      omega
  | code opened =>
    rw [move] at h
    unfold moveCode at h
    split at h
    · obtain ⟨rfl, rfl, rfl⟩ := Move.go.inj h
      simp only [leastOf, Frame.least]
      omega
    split at h
    · cases opened with
      | succ opened =>
        obtain ⟨rfl, rfl, rfl⟩ := Move.go.inj h
        simp only [leastOf, Frame.least]
        omega
      | zero =>
        cases below with
        | nil => exact nomatch h
        | cons f fs =>
          obtain ⟨rfl, rfl, rfl⟩ := Move.go.inj h
          rw [leastOf_cons, Frame.least]
          omega
    split at h
    · split at h <;>
      · obtain ⟨rfl, rfl, rfl⟩ := Move.go.inj h
        rw [leastOf_cons]
        omega
    · obtain ⟨rfl, rfl, rfl⟩ := Move.go.inj h
      omega

theorem leastOf_le_of_move_finish {more : Nat} (h : move top below b bs = .finish more) :
    leastOf top below ≤ more + 1 ∧ more ≤ bs.length := by
  cases top with
  | body q =>
    rw [move] at h
    unfold moveBody at h
    split at h
    · exact nomatch h
    split at h
    · split at h <;> exact nomatch h
    split at h
    · next hcloses =>
      cases below with
      | nil =>
        obtain rfl := Move.finish.inj h
        have hwidth := q.width_pos
        have hlength := length_le_of_closes hcloses
        rw [List.length_cons] at hlength
        simp only [leastOf, Frame.least, leastAll]
        omega
      | cons f fs => exact nomatch h
    · exact nomatch h
  | code opened =>
    rw [move] at h
    unfold moveCode at h
    split at h
    · exact nomatch h
    split at h
    · cases opened with
      | succ opened => exact nomatch h
      | zero =>
        cases below with
        | nil =>
          obtain rfl := Move.finish.inj h
          exact ⟨Nat.le_refl _, Nat.zero_le _⟩
        | cons f fs => exact nomatch h
    split at h
    · split at h <;> exact nomatch h
    · exact nomatch h

/-- Every frame has to be closed before the end. -/
theorem length_le_of_scan (h : scan skip top below bs = some after) :
    leastOf top below + skip + after.length ≤ bs.length := by
  induction bs generalizing skip top below with
  | nil => simp [scan] at h
  | cons b bs ih =>
    rw [List.length_cons]
    cases skip with
    | succ skip =>
      rw [scan] at h
      have := ih h
      omega
    | zero =>
      rw [scan_cons] at h
      split at h
      · cases h
      · next more hmove =>
        obtain rfl := Option.some.inj h
        have := leastOf_le_of_move_finish hmove
        rw [List.length_drop]
        omega
      · next hmove =>
        have := leastOf_le_of_move_go hmove
        have := ih h
        omega

/-! ### Literals in front of a cut -/

/-- The bytes that have to follow a step. -/
def Move.least : Move → Nat
  | .stop => 0
  | .finish more => more
  | .go more top below => more + leastOf top below

theorem moveBody_congr (hbytes : bs.take n = ds.take n) (h : (moveBody q below b bs).least ≤ n) :
    moveBody q below b ds = moveBody q below b bs := by
  have hwidth := q.width_pos
  have hcloses : q.width + q.pounds ≤ n + 1 → q.closes (b :: ds) = q.closes (b :: bs) :=
    fun hle => (closes_congr (n := n + 1) (by rw [List.take_succ_cons, List.take_succ_cons, hbytes])
      hle).symm
  have hescapes : q.pounds ≤ n → q.escapes ds = q.escapes bs :=
    fun hle => (leads_congr hbytes hle).symm
  unfold moveBody at h ⊢
  by_cases hline : (b == byte '\n' && !q.multiline) = true
  · rw [if_pos hline, if_pos hline]
  rw [if_neg hline] at h
  rw [if_neg hline, if_neg hline]
  cases hslash : b == byte '\\' with
  | true =>
    obtain rfl := eq_of_beq hslash
    rw [not_closes_backslash, not_closes_backslash]
    rw [hslash, Bool.true_and, not_closes_backslash] at h
    cases hescape : q.escapes bs with
    | true =>
      rw [hescape, if_pos rfl] at h
      have hn : q.pounds + 1 ≤ n := by
        split at h <;> exact Nat.le_trans (Nat.le_add_right _ _) h
      rw [hescapes (by omega), hescape, leads_drop_congr hbytes hn]
    | false =>
      rw [hescape, if_neg Bool.false_ne_true, if_neg Bool.false_ne_true, Move.least, leastOf,
        Frame.least] at h
      rw [hescapes (by omega), hescape]
      rfl
  | false =>
    rw [hslash, Bool.false_and, if_neg Bool.false_ne_true] at h
    have hn : q.width + q.pounds ≤ n + 1 := by
      split at h
      · cases below with
        | nil =>
          rw [Move.least] at h
          omega
        | cons f fs =>
          rw [Move.least] at h
          omega
      · rw [Move.least, leastOf, Frame.least] at h
        omega
    rw [Bool.false_and, Bool.false_and, hcloses hn]
    rfl

theorem moveCode_congr {opened : Nat} (hbytes : bs.take n = ds.take n)
    (h : (moveCode opened below b bs).least ≤ n) :
    moveCode opened below b ds = moveCode opened below b bs := by
  unfold moveCode at h ⊢
  split
  · rfl
  next hopen =>
  rw [if_neg hopen] at h
  split
  · rfl
  next hclose =>
  rw [if_neg hclose] at h
  split
  · next hquote =>
    rw [if_pos hquote] at h
    have hn : 2 ≤ n := by
      split at h
      · rw [Move.least] at h
        omega
      · rw [Move.least, leastOf_cons, Frame.least] at h
        have := leastOf_pos (.code opened) below
        have := Quote.width_pos ⟨false, 0⟩
        omega
    rw [leads_congr hbytes hn]
  · rfl

/-- A step looks at no more bytes than have to follow it, so it is the same in front of the same
    bytes. -/
theorem move_congr (hbytes : bs.take n = ds.take n) (h : (move top below b bs).least ≤ n) :
    move top below b ds = move top below b bs := by
  cases top with
  | body q => exact moveBody_congr hbytes h
  | code opened => exact moveCode_congr hbytes h

/-- A literal that ends ends there whatever is added. -/
theorem scan_append (h : scan skip top below xs = some after) :
    scan skip top below (xs ++ ys) = some (after ++ ys) := by
  induction xs generalizing skip top below with
  | nil => simp [scan] at h
  | cons b xs ih =>
    rw [List.cons_append]
    cases skip with
    | succ skip =>
      rw [scan] at h ⊢
      exact ih h
    | zero =>
      have hbytes : xs.take xs.length = (xs ++ ys).take xs.length := by simp
      rw [scan_cons] at h ⊢
      cases hmove : move top below b xs with
      | stop =>
        rw [hmove] at h
        cases h
      | finish more =>
        have hlength := (leastOf_le_of_move_finish hmove).2
        rw [hmove] at h
        obtain rfl := Option.some.inj h
        rw [move_congr hbytes (by rw [hmove]; exact hlength), hmove,
          ← List.drop_append_of_le_length hlength]
      | go more top' below' =>
        rw [hmove] at h
        have hlength := length_le_of_scan h
        rw [move_congr hbytes (by rw [hmove, Move.least]; omega), hmove]
        exact ih h

/-- A literal that ends in front of a cut ends there without what was cut off. -/
theorem exists_scan_of_append (h : scan skip top below (xs ++ ys) = some after)
    (hlength : ys.length ≤ after.length) :
    ∃ rest, scan skip top below xs = some rest ∧ after = rest ++ ys := by
  have hleast := length_le_of_scan h
  rw [List.length_append] at hleast
  induction xs generalizing skip top below with
  | nil =>
    have := leastOf_pos top below
    rw [List.length_nil] at hleast
    omega
  | cons b xs ih =>
    rw [List.cons_append] at h
    cases skip with
    | succ skip =>
      rw [scan] at h ⊢
      exact ih h (by rw [List.length_cons] at hleast; omega)
    | zero =>
      have hbytes : (xs ++ ys).take xs.length = xs.take xs.length := by simp
      rw [scan_cons] at h ⊢
      cases hmove : move top below b (xs ++ ys) with
      | stop =>
        rw [hmove] at h
        cases h
      | finish more =>
        have hmore := (leastOf_le_of_move_finish hmove).2
        rw [hmove] at h
        obtain rfl := Option.some.inj h
        rw [List.length_append] at hmore
        have hle : more ≤ xs.length := by
          rw [List.length_drop, List.length_append] at hlength
          omega
        rw [move_congr hbytes (by rw [hmove]; exact hle), hmove]
        exact ⟨xs.drop more, rfl, List.drop_append_of_le_length hle⟩
      | go more top' below' =>
        rw [hmove] at h
        have hafter := length_le_of_scan h
        rw [List.length_append] at hafter
        rw [move_congr hbytes (by rw [hmove, Move.least]; omega), hmove]
        exact ih h hafter

end Quote

end SwiftOutline
