/-
  SwiftOutline.Proofs.Token.Pieces

  What string literals are made of: bytes that stand for themselves, escapes, and
  interpolations, whose code holds groups in parentheses and literals again. The
  scanner, which keeps a stack of what is open, ends where such pieces end.
-/
import SwiftOutline.Proofs.Token.Truncation

namespace SwiftOutline

namespace Quote

open Utf8

/-! ## Pieces -/

/-- What the body of a string literal and the code of an interpolation are made of. -/
inductive Piece where
  /-- A byte that stands for itself. -/
  | byte (b : UInt8)
  /-- A byte behind the mark of an escape. -/
  | escaped (b : UInt8)
  /-- Code in parentheses behind the mark of an escape. -/
  | interpolation (code : List Piece)
  /-- Code in parentheses inside of code. -/
  | group (code : List Piece)
  /-- A string literal inside of code. -/
  | literal (multiline : Bool) (body : List Piece)

/-- Where pieces stand. -/
inductive Part where
  /-- In the body of a literal. -/
  | body (q : Quote)
  /-- In code up to a closing parenthesis. -/
  | code

/-- What begins an escape: a backslash and the pound signs of the literal. -/
def mark (q : Quote) : List UInt8 := byte '\\' :: List.replicate q.pounds (byte '#')

/-- What ends a literal. -/
def closer (q : Quote) : List UInt8 :=
  List.replicate q.width (byte '"') ++ List.replicate q.pounds (byte '#')

/-- What begins an escape among the pieces; there are none in code. -/
def Part.mark : Part → List UInt8
  | .body q => q.mark
  | .code => []

/-- What ends the pieces. -/
def Part.closer : Part → List UInt8
  | .body q => q.closer
  | .code => [byte ')']

mutual

/-- The bytes of a piece, with the mark of the escapes around it. -/
def Piece.bytes (mark : List UInt8) : Piece → List UInt8
  | .byte b => [b]
  | .escaped b => mark ++ [b]
  | .interpolation code => mark ++ byte '(' :: (bytesOf [] code ++ [byte ')'])
  | .group code => byte '(' :: (bytesOf [] code ++ [byte ')'])
  | .literal multiline body =>
    List.replicate (width ⟨multiline, 0⟩) (byte '"') ++
      (bytesOf (Quote.mark ⟨multiline, 0⟩) body ++ Quote.closer ⟨multiline, 0⟩)

/-- The bytes of some pieces. -/
def bytesOf (mark : List UInt8) : List Piece → List UInt8
  | [] => []
  | p :: ps => p.bytes mark ++ bytesOf mark ps

end

/-- `Reads part bs ps after` says that `bs` begins with the pieces `ps` of the part and what ends
    it, and that `after` stands behind that. No line feed stands for itself in a literal of one
    line, and nowhere does what begins an escape or ends the part. -/
inductive Reads : Part → List UInt8 → List Piece → List UInt8 → Prop where
  | close {q : Quote} {after : List UInt8} : Reads (.body q) (q.closer ++ after) [] after
  | byte {q : Quote} {b : UInt8} {bs after : List UInt8} {ps : List Piece}
      (line : b = Utf8.byte '\n' → q.multiline = true)
      (mark : b = Utf8.byte '\\' → q.escapes bs = false)
      (inside : q.closes (b :: bs) = false) (rest : Reads (.body q) bs ps after) :
      Reads (.body q) (b :: bs) (.byte b :: ps) after
  | escaped {q : Quote} {b : UInt8} {bs after : List UInt8} {ps : List Piece}
      (plain : b ≠ Utf8.byte '(') (rest : Reads (.body q) bs ps after) :
      Reads (.body q) (q.mark ++ b :: bs) (.escaped b :: ps) after
  | interpolation {q : Quote} {bs mid after : List UInt8} {code ps : List Piece}
      (inside : Reads .code bs code mid) (rest : Reads (.body q) mid ps after) :
      Reads (.body q) (q.mark ++ Utf8.byte '(' :: bs) (.interpolation code :: ps) after
  | closeCode {after : List UInt8} : Reads .code (Utf8.byte ')' :: after) [] after
  | codeByte {b : UInt8} {bs after : List UInt8} {ps : List Piece}
      (plain : b ∉ [Utf8.byte '(', Utf8.byte ')', Utf8.byte '"'])
      (rest : Reads .code bs ps after) : Reads .code (b :: bs) (.byte b :: ps) after
  | group {bs mid after : List UInt8} {code ps : List Piece} (inside : Reads .code bs code mid)
      (rest : Reads .code mid ps after) :
      Reads .code (Utf8.byte '(' :: bs) (.group code :: ps) after
  | literal {multiline : Bool} {bs mid after : List UInt8} {body ps : List Piece}
      (opening : leads '"' 2 bs = multiline)
      (inside : Reads (.body ⟨multiline, 0⟩) (bs.drop (if multiline then 2 else 0)) body mid)
      (rest : Reads .code mid ps after) :
      Reads .code (Utf8.byte '"' :: bs) (.literal multiline body :: ps) after

variable {q : Quote} {part : Part} {bs after mid : List UInt8} {ps : List Piece}

/-- The quotes that open a literal in code. -/
theorem replicate_append_drop_opening {multiline : Bool} (h : leads '"' 2 bs = multiline) :
    List.replicate (width ⟨multiline, 0⟩) (byte '"') ++ bs.drop (if multiline then 2 else 0) =
      byte '"' :: bs := by
  cases multiline with
  | false => rfl
  | true => exact congrArg (byte '"' :: ·) (replicate_append_drop_of_leads h)

/-- What has been read is made of the pieces. -/
theorem Reads.bytes_eq (h : Reads part bs ps after) :
    bs = bytesOf part.mark ps ++ (part.closer ++ after) := by
  induction h with
  | close => rfl
  | closeCode => rfl
  | byte _ _ _ _ ih | escaped _ _ ih | codeByte _ _ ih =>
    rw [bytesOf, Piece.bytes, List.append_assoc, ← ih]
    simp [Part.mark]
  | interpolation _ _ ih ih' | group _ _ ih ih' =>
    rw [bytesOf, Piece.bytes, List.append_assoc, ← ih', ih]
    simp [Part.mark, Part.closer]
  | literal opening _ _ ih ih' =>
    rw [bytesOf, Piece.bytes, List.append_assoc, ← ih', ← replicate_append_drop_opening opening, ih]
    simp [Part.mark, Part.closer]

/-- What ends a part is not empty. -/
theorem Reads.ne_nil (h : Reads part bs ps after) : bs ≠ [] := by
  cases h with
  | close =>
    rw [closer, List.append_assoc]
    exact List.append_ne_nil_of_left_ne_nil (by simp [Nat.ne_of_gt (width_pos _)]) _
  | escaped | interpolation => exact List.cons_ne_nil _ _
  | _ => exact List.cons_ne_nil _ _

/-! ## Frames -/

/-- What is read up to where a frame ends: the code of an interpolation with further parentheses
    open ends as often as there are parentheses. -/
def ReadsFrame : Frame → List UInt8 → List UInt8 → Prop
  | .body q, bs, after => ∃ ps, Reads (.body q) bs ps after
  | .code 0, bs, after => ∃ ps, Reads .code bs ps after
  | .code (opened + 1), bs, after =>
    ∃ ps mid, Reads .code bs ps mid ∧ ReadsFrame (.code opened) mid after

/-- What is read up to where some frames end, the innermost first. -/
def ReadsFrames : List Frame → List UInt8 → List UInt8 → Prop
  | [], bs, after => bs = after
  | f :: fs, bs, after => ∃ mid, ReadsFrame f bs mid ∧ ReadsFrames fs mid after

/-- The code of an interpolation begins with code up to a parenthesis, and what is read behind that
    does not depend on that code. -/
theorem ReadsFrame.exists_reads {opened : Nat} (h : ReadsFrame (.code opened) bs after) :
    ∃ ps mid, Reads .code bs ps mid ∧
      ∀ ds qs, Reads .code ds qs mid → ReadsFrame (.code opened) ds after := by
  cases opened with
  | zero =>
    rw [ReadsFrame] at h
    obtain ⟨ps, hps⟩ := h
    refine ⟨ps, after, hps, fun ds qs hqs => ?_⟩
    rw [ReadsFrame]
    exact ⟨qs, hqs⟩
  | succ opened =>
    rw [ReadsFrame] at h
    obtain ⟨ps, mid, hps, hmid⟩ := h
    refine ⟨ps, mid, hps, fun ds qs hqs => ?_⟩
    rw [ReadsFrame]
    exact ⟨qs, mid, hqs, hmid⟩

theorem mark_append_drop (h : q.escapes bs = true) :
    q.mark ++ bs.drop q.pounds = byte '\\' :: bs := by
  rw [mark, List.cons_append, replicate_append_drop_of_leads h]

theorem closer_append_drop {b : UInt8} (h : q.closes (b :: bs) = true) :
    q.closer ++ bs.drop (q.width - 1 + q.pounds) = b :: bs := by
  simp only [closes, Bool.and_eq_true] at h
  have hquotes := replicate_append_drop_of_leads h.1
  have hpounds := replicate_append_drop_of_leads h.2
  have hdrop : bs.drop (q.width - 1 + q.pounds) = ((b :: bs).drop q.width).drop q.pounds := by
    rw [List.drop_drop, show q.width + q.pounds = q.width - 1 + q.pounds + 1 by
      have := q.width_pos; omega, List.drop_succ_cons]
  rw [closer, List.append_assoc, hdrop, hpounds, hquotes]

variable {below fs : List Frame} {f : Frame} {b : UInt8} {more opened : Nat}

/-- A piece of a body is read in front of the others. -/
theorem readsFrames_of_moveBody (hmove : moveBody q below b bs = .go more f fs)
    (h : ReadsFrames (f :: fs) (bs.drop more) after) :
    ReadsFrames (.body q :: below) (b :: bs) after := by
  simp only [ReadsFrames, ReadsFrame]
  unfold moveBody at hmove
  split at hmove
  · cases hmove
  next hline =>
  split at hmove
  · next hescape =>
    obtain ⟨rfl, hescape⟩ : b = byte '\\' ∧ q.escapes bs = true := by simpa using hescape
    rw [← mark_append_drop hescape]
    split at hmove
    · next hopen =>
      obtain ⟨rfl, rfl, rfl⟩ := Move.go.inj hmove
      simp only [ReadsFrames, ReadsFrame] at h
      obtain ⟨mid, ⟨code, hcode⟩, _, ⟨ps, hps⟩, hbelow⟩ := h
      have hdrop := replicate_append_drop_of_leads hopen
      rw [List.drop_drop] at hdrop
      rw [← hdrop]
      exact ⟨_, ⟨_, .interpolation hcode hps⟩, hbelow⟩
    · next hopen =>
      obtain ⟨rfl, rfl, rfl⟩ := Move.go.inj hmove
      simp only [ReadsFrames, ReadsFrame] at h
      obtain ⟨mid, ⟨ps, hps⟩, hbelow⟩ := h
      rw [← List.drop_drop] at hps
      -- what ends the body stands behind the escaped byte
      cases hrest : bs.drop q.pounds with
      | nil =>
        rw [hrest] at hps
        exact (hps.ne_nil rfl).elim
      | cons c cs =>
        rw [hrest] at hps hopen
        refine ⟨mid, ⟨_, .escaped (fun hc => hopen ?_) hps⟩, hbelow⟩
        simp [leads, hc]
  next hescape =>
  split at hmove
  · next hcloses =>
    cases below with
    | nil => cases hmove
    | cons g gs =>
      obtain ⟨rfl, rfl, rfl⟩ := Move.go.inj hmove
      rw [← closer_append_drop hcloses]
      exact ⟨_, ⟨[], .close⟩, h⟩
  · next hcloses =>
    obtain ⟨rfl, rfl, rfl⟩ := Move.go.inj hmove
    simp only [ReadsFrames, ReadsFrame] at h
    obtain ⟨mid, ⟨ps, hps⟩, hbelow⟩ := h
    exact ⟨mid, ⟨_, .byte (by simpa using hline) (by simpa using hescape) (by simpa using hcloses)
      hps⟩, hbelow⟩

/-- A piece of code is read in front of the others. -/
theorem readsFrames_of_moveCode (hmove : moveCode opened below b bs = .go more f fs)
    (h : ReadsFrames (f :: fs) (bs.drop more) after) :
    ReadsFrames (.code opened :: below) (b :: bs) after := by
  unfold moveCode at hmove
  split at hmove
  · next hopen =>
    obtain rfl : b = byte '(' := by simpa using hopen
    obtain ⟨rfl, rfl, rfl⟩ := Move.go.inj hmove
    obtain ⟨mid, hframe, hbelow⟩ := h
    rw [ReadsFrame] at hframe
    obtain ⟨group, _, hgroup, hrest⟩ := hframe
    obtain ⟨ps, mid', hps, hgo⟩ := hrest.exists_reads
    exact ⟨mid, hgo _ _ (.group hgroup hps), hbelow⟩
  next hopen =>
  split at hmove
  · next hclose =>
    obtain rfl : b = byte ')' := by simpa using hclose
    cases opened with
    | succ opened =>
      obtain ⟨rfl, rfl, rfl⟩ := Move.go.inj hmove
      obtain ⟨mid, hframe, hbelow⟩ := h
      refine ⟨mid, ?_, hbelow⟩
      rw [ReadsFrame]
      exact ⟨[], _, .closeCode, hframe⟩
    | zero =>
      cases below with
      | nil => cases hmove
      | cons g gs =>
        obtain ⟨rfl, rfl, rfl⟩ := Move.go.inj hmove
        refine ⟨_, ?_, h⟩
        rw [ReadsFrame]
        exact ⟨[], .closeCode⟩
  next hclose =>
  split at hmove
  · next hquote =>
    obtain rfl : b = byte '"' := by simpa using hquote
    -- three quotes or one, either way the code goes on behind the literal
    obtain ⟨multiline, hopening, rfl, rfl, rfl⟩ : ∃ multiline, leads '"' 2 bs = multiline ∧
        more = (if multiline then 2 else 0) ∧ f = .body ⟨multiline, 0⟩ ∧
        fs = .code opened :: below := by
      split at hmove
      · next hopening =>
        obtain ⟨rfl, rfl, rfl⟩ := Move.go.inj hmove
        exact ⟨true, hopening, rfl, rfl, rfl⟩
      · next hopening =>
        obtain ⟨rfl, rfl, rfl⟩ := Move.go.inj hmove
        exact ⟨false, by simpa using hopening, rfl, rfl, rfl⟩
    obtain ⟨_, hbody, mid, hrest, hbelow⟩ := h
    rw [ReadsFrame] at hbody
    obtain ⟨body, hbody⟩ := hbody
    obtain ⟨ps, mid', hps, hgo⟩ := hrest.exists_reads
    exact ⟨mid, hgo _ _ (.literal hopening hbody hps), hbelow⟩
  next hquote =>
  obtain ⟨rfl, rfl, rfl⟩ := Move.go.inj hmove
  obtain ⟨mid, hframe, hbelow⟩ := h
  obtain ⟨ps, mid', hps, hgo⟩ := hframe.exists_reads
  refine ⟨mid, hgo _ _ (.codeByte ?_ hps), hbelow⟩
  simpa using And.intro hopen (And.intro hclose hquote)

theorem readsFrames_of_finish {top : Frame} (hmove : move top below b bs = .finish more) :
    ReadsFrames (top :: below) (b :: bs) (bs.drop more) := by
  cases top with
  | body q =>
    rw [move] at hmove
    unfold moveBody at hmove
    split at hmove
    · cases hmove
    split at hmove
    · split at hmove <;> cases hmove
    split at hmove
    · next hcloses =>
      cases below with
      | nil =>
        obtain rfl := Move.finish.inj hmove
        refine ⟨bs.drop (q.width - 1 + q.pounds), ?_, rfl⟩
        rw [← closer_append_drop hcloses, ReadsFrame]
        exact ⟨[], .close⟩
      | cons f fs => cases hmove
    · cases hmove
  | code opened =>
    rw [move] at hmove
    unfold moveCode at hmove
    split at hmove
    · cases hmove
    split at hmove
    · next hclose =>
      obtain rfl : b = byte ')' := by simpa using hclose
      cases opened with
      | succ opened => cases hmove
      | zero =>
        cases below with
        | nil =>
          obtain rfl := Move.finish.inj hmove
          refine ⟨bs, ?_, rfl⟩
          rw [ReadsFrame]
          exact ⟨[], .closeCode⟩
        | cons f fs => cases hmove
    split at hmove
    · split at hmove <;> cases hmove
    · cases hmove

/-- Where the scanner ends, the pieces of all frames have been read. -/
theorem readsFrames_of_scan {skip : Nat} {top : Frame} {below : List Frame}
    (h : scan skip top below bs = some after) :
    ReadsFrames (top :: below) (bs.drop skip) after := by
  induction bs generalizing skip top below with
  | nil => simp [scan] at h
  | cons b bs ih =>
    cases skip with
    | succ skip =>
      rw [scan] at h
      exact ih h
    | zero =>
      rw [scan_cons] at h
      split at h
      · cases h
      · next hmove =>
        obtain rfl := Option.some.inj h
        exact readsFrames_of_finish hmove
      · next hmove =>
        cases top with
        | body q => exact readsFrames_of_moveBody hmove (ih h)
        | code opened => exact readsFrames_of_moveCode hmove (ih h)

/-- A literal that ends is made of pieces. -/
theorem exists_reads_of_rest? (h : q.rest? bs = some after) :
    ∃ ps, Reads (.body q) bs ps after := by
  obtain ⟨mid, hps, rfl⟩ := readsFrames_of_scan h
  rwa [ReadsFrame] at hps

end Quote

end SwiftOutline
