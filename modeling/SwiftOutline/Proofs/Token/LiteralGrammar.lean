/-
  SwiftOutline.Proofs.Token.LiteralGrammar

  The grammar of string literals. The scanner walks with a stack of what is open;
  the grammar has none, strings and the code of interpolations derive from each
  other. A stretch of the text is scanned as a body, or as code, if and only if it
  derives from the grammar, and all that either of them looks ahead stays within it.
-/
import SwiftOutline.Proofs.Token.Pieces

namespace SwiftOutline

namespace Quote

open Utf8

/-! ## Derivations -/

/-- The stretches of a text that are the rest of a literal behind its opening delimiter, or the rest
    of an interpolation behind its opening parenthesis, both with what ends them. -/
inductive Derives : Part → List UInt8 → Prop where
  /-- The closing delimiter ends a literal. -/
  | close {q : Quote} : Derives (.body q) q.closer
  /-- A byte that begins neither an escape nor the closing delimiter stands for itself; a line feed
      does so only in a literal of several lines. -/
  | byte {q : Quote} {b : UInt8} {w : List UInt8} (line : b = Utf8.byte '\n' → q.multiline = true)
      (mark : ¬ q.mark <+: b :: w) (closer : ¬ q.closer <+: b :: w) (rest : Derives (.body q) w) :
      Derives (.body q) (b :: w)
  /-- Behind the mark of an escape stands any one byte, unless it opens an interpolation. -/
  | escaped {q : Quote} {b : UInt8} {w : List UInt8} (plain : b ≠ Utf8.byte '(')
      (rest : Derives (.body q) w) : Derives (.body q) (q.mark ++ b :: w)
  | interpolation {q : Quote} {v w : List UInt8} (code : Derives .code v)
      (rest : Derives (.body q) w) : Derives (.body q) (q.mark ++ Utf8.byte '(' :: (v ++ w))
  /-- The closing parenthesis ends an interpolation. -/
  | closeCode : Derives .code [Utf8.byte ')']
  | codeByte {b : UInt8} {w : List UInt8}
      (plain : b ∉ [Utf8.byte '(', Utf8.byte ')', Utf8.byte '"']) (rest : Derives .code w) :
      Derives .code (b :: w)
  /-- Parentheses in code are balanced. -/
  | group {v w : List UInt8} (inner : Derives .code v) (rest : Derives .code w) :
      Derives .code (Utf8.byte '(' :: (v ++ w))
  /-- A literal in code has one quote on either side, or three if two more quotes stand behind the
      first one. -/
  | literal {v w : List UInt8} (opening : ¬ List.replicate 2 (Utf8.byte '"') <+: v ++ w)
      (body : Derives (.body ⟨false, 0⟩) v) (rest : Derives .code w) :
      Derives .code (Utf8.byte '"' :: (v ++ w))
  | multiline {v w : List UInt8} (body : Derives (.body ⟨true, 0⟩) v) (rest : Derives .code w) :
      Derives .code (List.replicate 3 (Utf8.byte '"') ++ (v ++ w))

variable {q : Quote} {part : Part} {b : UInt8} {bs v w after : List UInt8} {ps : List Piece}
  {below : List Frame} {n opened i j : Nat}

/-- A derived stretch has room for what ends it. -/
theorem Derives.length_closer_le (h : Derives part w) : part.closer.length ≤ w.length := by
  induction h with
  | close => exact Nat.le_refl _
  | closeCode => exact Nat.le_refl _
  | byte _ _ _ _ ih | codeByte _ _ ih => exact Nat.le_succ_of_le ih
  | escaped _ _ ih =>
    rw [List.length_append, List.length_cons]
    omega
  | interpolation _ _ _ ih | group _ _ _ ih | literal _ _ _ _ ih | multiline _ _ _ ih =>
    simp only [List.length_append, List.length_cons]
    omega

theorem length_closer (q : Quote) : q.closer.length = q.width + q.pounds := by
  rw [closer, List.length_append, List.length_replicate, List.length_replicate]

theorem length_mark (q : Quote) : q.mark.length = q.pounds + 1 := by
  rw [mark, List.length_cons, List.length_replicate]

/-! ## Lookahead -/

theorem leads_iff {c : Char} : leads c n bs = true ↔ List.replicate n (byte c) <+: bs := by
  induction n generalizing bs with
  | zero => simp [leads]
  | succ n ih =>
    cases bs with
    | nil => simp [leads, List.replicate_succ]
    | cons b bs =>
      rw [leads, Bool.and_eq_true, beq_iff_eq, ih, List.replicate_succ, List.cons_prefix_cons]
      exact and_congr_left fun _ => eq_comm

theorem mark_prefix_iff : q.mark <+: b :: bs ↔ b = byte '\\' ∧ q.escapes bs = true := by
  rw [mark, List.cons_prefix_cons, escapes, leads_iff]
  exact and_congr_left fun _ => eq_comm

theorem closes_iff : q.closes bs = true ↔ q.closer <+: bs := by
  rw [closes, Bool.and_eq_true, closer]
  constructor
  · rintro ⟨hquotes, hpounds⟩
    rw [← replicate_append_drop_of_leads hquotes]
    exact (List.prefix_append_right_inj _).mpr (leads_iff.mp hpounds)
  · intro h
    have hquotes := leads_iff.mpr ((List.prefix_append _ _).trans h)
    refine ⟨hquotes, leads_iff.mpr ?_⟩
    rwa [← replicate_append_drop_of_leads hquotes, List.prefix_append_right_inj] at h

/-- What a stretch has room for stands at its head if it does so in the text. -/
theorem prefix_append_iff {xs ys : List UInt8} (h : xs.length ≤ w.length) :
    xs <+: w ++ ys ↔ xs <+: w :=
  ⟨fun hxs => List.prefix_of_prefix_length_le hxs (List.prefix_append w ys) h,
    fun hxs => hxs.trans (List.prefix_append w ys)⟩

/-! ## What is scanned derives -/

theorem Reads.exists_derives (h : Reads part bs ps after) :
    ∃ w, bs = w ++ after ∧ Derives part w := by
  induction h with
  | @close q after => exact ⟨q.closer, rfl, .close⟩
  | @byte q b bs after ps line mark inside rest ih =>
    obtain ⟨w, rfl, hw⟩ := ih
    refine ⟨b :: w, rfl, .byte line (fun hprefix => ?_) (fun hprefix => ?_) hw⟩
    · have hmark := hprefix.trans (List.prefix_append (b :: w) after)
      rw [List.cons_append, mark_prefix_iff] at hmark
      exact Bool.eq_false_iff.mp (mark hmark.1) hmark.2
    · have hcloser := hprefix.trans (List.prefix_append (b :: w) after)
      rw [List.cons_append, ← closes_iff] at hcloser
      exact Bool.eq_false_iff.mp inside hcloser
  | escaped plain rest ih =>
    obtain ⟨w, rfl, hw⟩ := ih
    exact ⟨_, by rw [List.append_assoc, List.cons_append], .escaped plain hw⟩
  | interpolation inside rest ihcode ihrest =>
    obtain ⟨w, rfl, hw⟩ := ihrest
    obtain ⟨v, rfl, hv⟩ := ihcode
    exact ⟨_, by simp, .interpolation hv hw⟩
  | closeCode => exact ⟨_, rfl, .closeCode⟩
  | codeByte plain rest ih =>
    obtain ⟨w, rfl, hw⟩ := ih
    exact ⟨_ :: w, rfl, .codeByte plain hw⟩
  | group inside rest ihinner ihrest =>
    obtain ⟨w, rfl, hw⟩ := ihrest
    obtain ⟨v, rfl, hv⟩ := ihinner
    exact ⟨_, by simp, .group hv hw⟩
  | @literal multiline bs mid after body ps opening inside rest ihbody ihrest =>
    obtain ⟨w, rfl, hw⟩ := ihrest
    obtain ⟨v, hbs, hv⟩ := ihbody
    have htext := replicate_append_drop_opening opening
    cases multiline with
    | true =>
      refine ⟨_, ?_, .multiline hv hw⟩
      rw [← htext, hbs]
      simp [width]
    | false =>
      obtain rfl : bs = v ++ (w ++ after) := hbs
      refine ⟨_, by simp, .literal (fun hprefix => ?_) hv hw⟩
      have hquotes := hprefix.trans (List.prefix_append (v ++ w) after)
      rw [List.append_assoc, ← leads_iff] at hquotes
      exact Bool.eq_false_iff.mp opening hquotes

/-! ## What derives is scanned -/

/-- What is scanned behind a frame that has ended: the frames that enclose it, if there are any. -/
def resume : (below : List Frame) → List UInt8 → Option (List UInt8)
  | [], after => some after
  | f :: fs, after => scan 0 f fs after

/-- The frames around the code of an interpolation behind a closing parenthesis. -/
def enclosing : (opened : Nat) → (below : List Frame) → List Frame
  | 0, below => below
  | opened + 1, below => .code opened :: below

/-- The scanner passes over the stretch as over one of the part, whatever encloses it and whatever
    stands behind it. -/
def Scans : Part → List UInt8 → Prop
  | .body q, w => ∀ below after, scan 0 (.body q) below (w ++ after) = resume below after
  | .code, w => ∀ opened below after,
      scan 0 (.code opened) below (w ++ after) = resume (enclosing opened below) after

theorem scan_nil (top : Frame) : scan n top below [] = none := by
  cases n <;> cases top <;> rfl

theorem scan_eq_drop (n : Nat) (top : Frame) (below : List Frame) (bs : List UInt8) :
    scan n top below bs = scan 0 top below (bs.drop n) := by
  induction n generalizing bs with
  | zero => rfl
  | succ n ih =>
    cases bs with
    | nil => rw [List.drop_nil, scan_nil, scan_nil]
    | cons b bs =>
      rw [scan, ih]
      rfl

theorem scan_closer (q : Quote) (below : List Frame) (after : List UInt8) :
    scan 0 (.body q) below (q.closer ++ after) = resume below after := by
  obtain ⟨v, hv⟩ : ∃ v, q.closer = byte '"' :: v := by
    obtain ⟨k, hk⟩ : ∃ k, q.width = k + 1 := ⟨q.width - 1, by have := q.width_pos; omega⟩
    exact ⟨_, by rw [closer, hk, List.replicate_succ, List.cons_append]⟩
  have hcloses : q.closes (byte '"' :: (v ++ after)) = true := by
    rw [closes_iff, ← List.cons_append, ← hv]
    exact List.prefix_append _ _
  have hdrop : (v ++ after).drop (q.width - 1 + q.pounds) = after := by
    refine List.drop_left' ?_
    have hlength := congrArg List.length hv
    rw [length_closer, List.length_cons] at hlength
    have := q.width_pos
    omega
  have hline : ¬ (byte '"' == byte '\n' && !q.multiline) = true := by
    simp [show (byte '"' == byte '\n') = false by decide]
  have hescape : ¬ (byte '"' == byte '\\' && q.escapes (v ++ after)) = true := by
    simp [show (byte '"' == byte '\\') = false by decide]
  rw [hv, List.cons_append, scan_cons, move]
  unfold moveBody
  rw [if_neg hline, if_neg hescape, if_pos hcloses]
  cases below with
  | nil => exact congrArg some hdrop
  | cons f fs => exact (scan_eq_drop _ f fs _).trans (by rw [hdrop, resume])

theorem scan_byte (line : b = byte '\n' → q.multiline = true) (mark : ¬ q.mark <+: b :: bs)
    (closer : ¬ q.closer <+: b :: bs) :
    scan 0 (.body q) below (b :: bs) = scan 0 (.body q) below bs := by
  have hline : ¬ (b == byte '\n' && !q.multiline) = true := by
    simpa using line
  have hescape : ¬ (b == byte '\\' && q.escapes bs) = true := by
    rw [Bool.and_eq_true, beq_iff_eq]
    rwa [mark_prefix_iff] at mark
  have hmove : move (.body q) below b bs = .go 0 (.body q) below := by
    rw [move]
    unfold moveBody
    rw [if_neg hline, if_neg hescape, if_neg (mt closes_iff.mp closer)]
  rw [scan_cons, hmove]

/-- The mark of an escape and the byte behind it. -/
theorem scan_escape (q : Quote) (below : List Frame) (b : UInt8) (bs : List UInt8) :
    scan 0 (.body q) below (q.mark ++ b :: bs) =
      if b = byte '(' then scan 0 (.code 0) (.body q :: below) bs
      else scan 0 (.body q) below bs := by
  let rest := List.replicate q.pounds (byte '#') ++ b :: bs
  have hescapes : q.escapes rest = true := leads_iff.mpr (List.prefix_append _ _)
  have hbehind : rest.drop q.pounds = b :: bs := List.drop_left' List.length_replicate
  have hdrop : rest.drop (q.pounds + 1) = bs := by
    rw [← List.drop_drop, hbehind, List.drop_succ_cons, List.drop_zero]
  have hopen : leads '(' 1 (rest.drop q.pounds) = true ↔ b = byte '(' := by
    rw [hbehind]
    simp [leads]
  have hmove : move (.body q) below (byte '\\') rest =
      if b = byte '(' then .go (q.pounds + 1) (.code 0) (.body q :: below)
      else .go (q.pounds + 1) (.body q) below := by
    rw [move]
    unfold moveBody
    rw [if_neg (by simp [show byte '\\' ≠ byte '\n' by decide]),
      if_pos (by simp [hescapes])]
    simp only [hopen]
  rw [show q.mark ++ b :: bs = byte '\\' :: rest from rfl, scan_cons, hmove]
  by_cases hb : b = byte '('
  · rw [if_pos hb, if_pos hb]
    exact (scan_eq_drop _ _ _ _).trans (by rw [hdrop])
  · rw [if_neg hb, if_neg hb]
    exact (scan_eq_drop _ _ _ _).trans (by rw [hdrop])

theorem scan_closeCode (opened : Nat) (below : List Frame) (after : List UInt8) :
    scan 0 (.code opened) below (byte ')' :: after) = resume (enclosing opened below) after := by
  rw [scan_cons, move]
  unfold moveCode
  rw [if_neg (by decide), if_pos (by decide)]
  cases opened with
  | succ opened => rfl
  | zero => cases below <;> rfl

theorem scan_codeByte (plain : b ∉ [byte '(', byte ')', byte '"']) :
    scan 0 (.code opened) below (b :: bs) = scan 0 (.code opened) below bs := by
  obtain ⟨hopen, hclose, hquote⟩ : b ≠ byte '(' ∧ b ≠ byte ')' ∧ b ≠ byte '"' := by
    simpa using plain
  have hmove : move (.code opened) below b bs = .go 0 (.code opened) below := by
    rw [move]
    unfold moveCode
    rw [if_neg (by simpa using hopen), if_neg (by simpa using hclose),
      if_neg (by simpa using hquote)]
  rw [scan_cons, hmove]

theorem scan_group (opened : Nat) (below : List Frame) (bs : List UInt8) :
    scan 0 (.code opened) below (byte '(' :: bs) = scan 0 (.code (opened + 1)) below bs := by
  rw [scan_cons, move]
  unfold moveCode
  rw [if_pos (by decide)]

/-- A quote in code, with two more behind it or not. -/
theorem scan_quote (opened : Nat) (below : List Frame) (bs : List UInt8) :
    scan 0 (.code opened) below (byte '"' :: bs) =
      if List.replicate 2 (byte '"') <+: bs then
        scan 2 (.body ⟨true, 0⟩) (.code opened :: below) bs
      else scan 0 (.body ⟨false, 0⟩) (.code opened :: below) bs := by
  have hmove : move (.code opened) below (byte '"') bs =
      if List.replicate 2 (byte '"') <+: bs then
        .go 2 (.body ⟨true, 0⟩) (.code opened :: below)
      else .go 0 (.body ⟨false, 0⟩) (.code opened :: below) := by
    rw [move]
    unfold moveCode
    rw [if_neg (by decide), if_neg (by decide), if_pos (by decide)]
    simp only [leads_iff]
  rw [scan_cons, hmove]
  by_cases hopening : List.replicate 2 (byte '"') <+: bs
  · rw [if_pos hopening, if_pos hopening]
  · rw [if_neg hopening, if_neg hopening]

/-- A stretch that derives is scanned. Behind an inner stretch the scanner is where the stretch
    around it goes on. -/
theorem Derives.scans (h : Derives part w) : Scans part w := by
  induction h with
  | @close q => exact fun below after => scan_closer q below after
  | @byte q b w line mark closer rest ih =>
    intro below after
    have hroom : q.width + q.pounds ≤ w.length := by
      have := rest.length_closer_le
      rwa [Part.closer, length_closer] at this
    have := q.width_pos
    rw [List.cons_append, scan_byte line, ih below after]
    · rwa [← List.cons_append, prefix_append_iff]
      rw [length_mark, List.length_cons]
      omega
    · rwa [← List.cons_append, prefix_append_iff]
      rw [length_closer, List.length_cons]
      omega
  | escaped plain rest ih =>
    intro below after
    rw [List.append_assoc, List.cons_append, scan_escape, if_neg plain, ih below after]
  | @interpolation q v w code rest ihcode ihrest =>
    intro below after
    rw [List.append_assoc, List.cons_append, List.append_assoc, scan_escape, if_pos rfl,
      ihcode 0 (.body q :: below), enclosing, resume, ihrest below after]
  | closeCode => exact fun opened below after => scan_closeCode opened below after
  | codeByte plain rest ih =>
    intro opened below after
    rw [List.cons_append, scan_codeByte plain, ih opened below after]
  | group inner rest ihinner ihrest =>
    intro opened below after
    rw [List.cons_append, List.append_assoc, scan_group, ihinner (opened + 1) below, enclosing,
      resume, ihrest opened below after]
  | @literal v w opening body rest ihbody ihrest =>
    intro opened below after
    have hroom : (List.replicate 2 (Utf8.byte '"')).length ≤ (v ++ w).length := by
      have hbody := body.length_closer_le
      have hrest := rest.length_closer_le
      simp only [Part.closer, length_closer, width, List.length_singleton] at hbody hrest
      rw [List.length_append, List.length_replicate]
      simp only [Bool.false_eq_true, if_false] at hbody
      omega
    rw [List.cons_append, scan_quote, if_neg (mt (prefix_append_iff hroom).mp opening),
      List.append_assoc, ihbody (.code opened :: below), resume, ihrest opened below after]
  | @multiline v w body rest ihbody ihrest =>
    intro opened below after
    show scan 0 _ _ (Utf8.byte '"' :: (List.replicate 2 (Utf8.byte '"') ++ (v ++ w) ++ after)) = _
    rw [List.append_assoc, scan_quote, if_pos (List.prefix_append _ _), scan_eq_drop,
      List.drop_left' List.length_replicate, List.append_assoc, ihbody (.code opened :: below),
      resume, ihrest opened below after]

/-! ## Scanner and grammar -/

/-- The bytes behind a part, of which a text is the rest. -/
def Part.rest? : Part → List UInt8 → Option (List UInt8)
  | .body q => q.rest?
  | .code => scan 0 (.code 0) []

/-- The scanner ends behind a stretch that derives, and nowhere else. -/
theorem Part.rest?_eq_some_iff :
    part.rest? bs = some after ↔ ∃ w, bs = w ++ after ∧ Derives part w := by
  constructor
  · intro h
    cases part with
    | body q =>
      obtain ⟨ps, hps⟩ := exists_reads_of_rest? h
      exact hps.exists_derives
    | code =>
      obtain ⟨mid, hreads, rfl⟩ := readsFrames_of_scan h
      rw [ReadsFrame] at hreads
      obtain ⟨ps, hps⟩ := hreads
      exact hps.exists_derives
  · rintro ⟨w, rfl, hw⟩
    cases part with
    | body q => exact hw.scans [] after
    | code => exact hw.scans 0 [] after

/-- The index behind the end of a part of the text `bs` that begins at the index `i`. -/
def stop? (part : Part) (bs : List UInt8) (i : Nat) : Option Nat :=
  (part.rest? (bs.drop i)).map fun after => bs.length - after.length

theorem Derives.ne_nil (h : Derives part w) : w ≠ [] := by
  have hlength := h.length_closer_le
  have hpos : 0 < part.closer.length := by
    cases part with
    | body q =>
      have := q.width_pos
      rw [Part.closer, length_closer]
      omega
    | code => exact Nat.one_pos
  exact List.ne_nil_of_length_pos (by omega)

theorem Derives.lt_of_slice (h : Derives part ((bs.take j).drop i)) : i < j := by
  have hpos := List.length_pos_iff.mpr h.ne_nil
  rw [List.length_drop, List.length_take] at hpos
  omega

/-- The part that begins at `i` ends at `j` if and only if the stretch between them derives. -/
theorem stop?_eq_some_iff :
    stop? part bs i = some j ↔ j ≤ bs.length ∧ Derives part ((bs.take j).drop i) := by
  rw [stop?, Option.map_eq_some_iff]
  constructor
  · rintro ⟨after, hscan, rfl⟩
    obtain ⟨w, hw, hderives⟩ := Part.rest?_eq_some_iff.mp hscan
    have hlength := congrArg List.length hw
    rw [List.length_drop, List.length_append] at hlength
    have hpos := List.length_pos_iff.mpr hderives.ne_nil
    refine ⟨Nat.sub_le _ _, ?_⟩
    rwa [List.drop_take, hw, show bs.length - after.length - i = w.length by omega,
      List.take_left]
  · rintro ⟨hj, hderives⟩
    have hlt := hderives.lt_of_slice
    refine ⟨bs.drop j, Part.rest?_eq_some_iff.mpr ⟨_, ?_, hderives⟩, ?_⟩
    · rw [List.drop_take, show bs.drop j = (bs.drop i).drop (j - i) by
        rw [List.drop_drop, Nat.add_sub_cancel' (Nat.le_of_lt hlt)], List.take_append_drop]
    · rw [List.length_drop]
      omega

/-- A literal whose body begins at `i`, or an interpolation whose code does, ends at `j` if and only
    if the stretch between them derives from the grammar of literals; such a `j` is unique, and lies
    behind `i` and not behind the end of the text. -/
theorem literal_grammar (part : Part) (bs : List UInt8) (i : Nat) :
    (∀ j, stop? part bs i = some j ↔ j ≤ bs.length ∧ Derives part ((bs.take j).drop i)) ∧
    (∀ j k, j ≤ bs.length → k ≤ bs.length → Derives part ((bs.take j).drop i) →
      Derives part ((bs.take k).drop i) → j = k) ∧
    ∀ j, stop? part bs i = some j → i < j ∧ j ≤ bs.length := by
  refine ⟨fun j => stop?_eq_some_iff, fun j k hj hk h h' => ?_, fun j hstop => ?_⟩
  · have hstop : stop? part bs i = some j := stop?_eq_some_iff.mpr ⟨hj, h⟩
    have hstop' : stop? part bs i = some k := stop?_eq_some_iff.mpr ⟨hk, h'⟩
    exact Option.some.inj (hstop.symm.trans hstop')
  · obtain ⟨hj, hderives⟩ := stop?_eq_some_iff.mp hstop
    exact ⟨hderives.lt_of_slice, hj⟩

end Quote

end SwiftOutline
