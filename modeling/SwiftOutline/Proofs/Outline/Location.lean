/-
  SwiftOutline.Proofs.Outline.Location

  Lines and columns are right, and they are right whatever a service was asked
  before. The line of an offset is the number of line feeds before it, and the
  column its distance from the last of these; a service that keeps the line
  starts of one tree answers from them only about elements of that tree.
-/
import SwiftOutline.Outline.Location
import SwiftOutline.Proofs.Token.Utf8
import SwiftOutline.Proofs.Tree.Trimmed

namespace SwiftOutline

open Utf8 (encode)

/-! ## Lines of bytes -/

namespace Utf8

/-- The byte that ends a line. -/
def lineFeed : UInt8 := 0x0a

/-- The line that some bytes leave unfinished, behind all finished ones. -/
structure Unfinished (bytes finished line : List UInt8) : Prop where
  bytes_eq : bytes = finished ++ line
  finished : finished = [] ∨ finished.getLast? = some lineFeed
  unfinished : lineFeed ∉ line

theorem lineFeed_not_mem_encode {c : Char} (hc : c ≠ '\n') :
    lineFeed ∉ String.utf8EncodeChar c := by
  intro hmem
  by_cases hascii : c.val.toNat ≤ 0x7f
  · -- an ASCII character is encoded as itself
    have hsize : c.utf8Size = 1 := Char.utf8Size_eq_one_iff.mpr (UInt32.le_iff_toNat_le.mpr hascii)
    rw [String.utf8EncodeChar_eq_singleton hsize, List.mem_singleton] at hmem
    have hval := congrArg UInt8.toNat hmem
    rw [UInt32.toNat_toUInt8] at hval
    have hten : lineFeed.toNat = 10 := rfl
    have hnat : c.val.toNat = 10 := by omega
    exact hc (Char.ext (UInt32.toNat_inj.mp hnat))
  · have hle := le_of_mem_utf8EncodeChar (by omega) hmem
    exact absurd hle (by decide)

variable {bytes bytes' finished finished' line line' : List UInt8}

/-- The unfinished line of some bytes is no other one. -/
theorem Unfinished.unique (h : Unfinished bytes finished line)
    (h' : Unfinished bytes finished' line') : finished = finished' ∧ line = line' := by
  have heq : finished ++ line = finished' ++ line' := h.bytes_eq.symm.trans h'.bytes_eq
  -- what one of them has finished and the other has not ends with a line feed
  have hnone : ∀ {xs ys zs : List UInt8}, ys = xs ++ zs →
      (ys = [] ∨ ys.getLast? = some lineFeed) → lineFeed ∉ zs → zs = [] := by
    intro xs ys zs hys hlast hzs
    cases hz : zs.getLast? with
    | none => exact List.getLast?_eq_none_iff.mp hz
    | some b =>
      have hb : ys.getLast? = some b := by rw [hys, List.getLast?_append, hz, Option.some_or]
      rcases hlast with hnil | hlast
      · rw [hnil] at hb
        exact nomatch hb
      · rw [hlast] at hb
        exact absurd (List.mem_of_getLast? (Option.some.inj hb ▸ hz)) hzs
  rcases List.append_eq_append_iff.mp heq with ⟨zs, hfinished, hline⟩ | ⟨zs, hfinished, hline⟩
  · have hzs := hnone hfinished h'.finished fun hmem =>
      h.unfinished (hline ▸ List.mem_append_left _ hmem)
    subst hzs
    exact ⟨by rw [hfinished, List.append_nil], by rw [hline, List.nil_append]⟩
  · have hzs := hnone hfinished h.finished fun hmem =>
      h'.unfinished (hline ▸ List.mem_append_left _ hmem)
    subst hzs
    exact ⟨by rw [hfinished, List.append_nil], by rw [hline, List.nil_append]⟩

/-- Bytes without a line feed go on with the line. -/
theorem Unfinished.append (h : Unfinished bytes finished line) (hmore : lineFeed ∉ bytes') :
    Unfinished (bytes ++ bytes') finished (line ++ bytes') := by
  refine ⟨by rw [h.bytes_eq, List.append_assoc], h.finished, fun hmem => ?_⟩
  rcases List.mem_append.mp hmem with hmem | hmem
  · exact h.unfinished hmem
  · exact hmore hmem

end Utf8

/-! ## Line starts -/

open Utf8 (lineFeed Unfinished)

variable {bytes : List UInt8} {start offset : Nat}

/-- The offsets behind the line feeds among bytes that begin at `start`. -/
def feedsFrom : (start : Nat) → List UInt8 → List Nat
  | _, [] => []
  | start, b :: bs =>
    if b == lineFeed then (start + 1) :: feedsFrom (start + 1) bs else feedsFrom (start + 1) bs

theorem feedsFrom_append_of_not_mem (h : lineFeed ∉ bytes) (more : List UInt8) :
    feedsFrom start (bytes ++ more) = feedsFrom (start + bytes.length) more := by
  induction bytes generalizing start with
  | nil => rfl
  | cons b bs ih =>
    obtain ⟨hb, hbs⟩ := List.ne_and_not_mem_of_not_mem_cons h
    rw [List.cons_append, feedsFrom, if_neg (by simpa using hb.symm), ih hbs, List.length_cons,
      Nat.add_right_comm, Nat.add_assoc]

/-- A line can be told to begin from the bytes of a text as well as from its characters. -/
theorem lineStartsFrom_eq (start : Nat) (cs : List Char) :
    lineStartsFrom start cs = feedsFrom start (encode cs) := by
  induction cs generalizing start with
  | nil => rfl
  | cons c cs ih =>
    rw [Utf8.encode_cons]
    by_cases hc : c = '\n'
    · subst hc
      exact congrArg ((start + 1) :: ·) (ih (start + 1))
    · rw [lineStartsFrom, if_neg (by simpa using hc), ih,
        feedsFrom_append_of_not_mem (Utf8.lineFeed_not_mem_encode hc),
        String.length_utf8EncodeChar]

/-- The lines that begin up to an offset, the first one apart: one for every line feed before the
    offset, and the last of them is the unfinished one. -/
theorem exists_unfinished_of_feedsFrom (bytes : List UInt8) (start offset : Nat) :
    ∃ finished line, Unfinished (bytes.take (offset - start)) finished line ∧
      ((feedsFrom start bytes).takeWhile fun s => s ≤ offset).length = finished.count lineFeed ∧
      ((feedsFrom start bytes).takeWhile fun s => s ≤ offset).getLast? =
        if finished = [] then none else some (start + finished.length) := by
  induction bytes generalizing start with
  | nil => exact ⟨[], [], ⟨by simp, .inl rfl, List.not_mem_nil⟩, rfl, rfl⟩
  | cons b bs ih =>
    obtain ⟨finished, line, hline, hcount, hlast⟩ := ih (start + 1)
    rw [feedsFrom]
    by_cases hreached : start + 1 ≤ offset
    · have htake : (b :: bs).take (offset - start) = b :: bs.take (offset - (start + 1)) := by
        rw [show offset - start = offset - (start + 1) + 1 by omega, List.take_succ_cons]
      rw [htake, hline.bytes_eq]
      by_cases hb : b = lineFeed
      · -- the line feed ends a line, and the next one begins behind it
        subst hb
        refine ⟨lineFeed :: finished, line, ⟨rfl, .inr ?_, hline.unfinished⟩, ?_, ?_⟩
        · rcases hline.finished with rfl | hfinished
          · rfl
          · rw [List.getLast?_cons, hfinished, Option.getD_some]
        · rw [if_pos (by simp), List.takeWhile_cons_of_pos (by simpa using hreached),
            List.length_cons, hcount, List.count_cons_self]
        · rw [if_pos (by simp), List.takeWhile_cons_of_pos (by simpa using hreached),
            List.getLast?_cons, hlast, if_neg (List.cons_ne_nil lineFeed finished),
            List.length_cons]
          by_cases hnil : finished = []
          · rw [if_pos hnil, hnil]
            rfl
          · rw [if_neg hnil, Option.getD_some, Nat.add_right_comm, Nat.add_assoc]
      · rw [if_neg (by simpa using hb)]
        by_cases hnil : finished = []
        · subst hnil
          refine ⟨[], b :: line, ⟨rfl, .inl rfl, ?_⟩, hcount, hlast⟩
          exact List.not_mem_cons_of_ne_of_not_mem (Ne.symm hb) hline.unfinished
        · refine ⟨b :: finished, line, ⟨rfl, .inr ?_, hline.unfinished⟩, ?_, ?_⟩
          · rw [List.getLast?_cons, hline.finished.resolve_left hnil, Option.getD_some]
          · rw [hcount, List.count_cons_of_ne hb]
          · rw [hlast, if_neg hnil, if_neg (by simp), List.length_cons, Nat.add_right_comm,
              Nat.add_assoc]
    · -- nothing is reached yet
      have hnil : finished = [] := by
        have hbytes := hline.bytes_eq
        rw [show offset - (start + 1) = 0 by omega, List.take_zero] at hbytes
        exact (List.append_eq_nil_iff.mp hbytes.symm).1
      have hreach : (if b == lineFeed then (start + 1) :: feedsFrom (start + 1) bs
          else feedsFrom (start + 1) bs).takeWhile (fun s => decide (s ≤ offset)) = [] := by
        split
        · exact List.takeWhile_cons_of_neg (by simpa using hreached)
        · rwa [hnil, if_pos rfl, List.getLast?_eq_none_iff] at hlast
      refine ⟨[], [], ?_, by rw [hreach]; rfl, by rw [hreach]; rfl⟩
      rw [show offset - start = 0 by omega, List.take_zero]
      exact ⟨rfl, .inl rfl, List.not_mem_nil⟩

/-! ## Positions -/

/-- The place is one in a text: its line is the number of line feeds before its offset, and its
    column how many bytes of the line, which begins with the text or directly behind a line feed,
    stand before the offset. -/
structure Position.StandsIn (p : Position) (text : String) : Prop where
  line : p.line = ((encode text.toList).take p.offset).count lineFeed
  column : ∃ finished line, Unfinished ((encode text.toList).take p.offset) finished line ∧
    finished.length + p.column = p.offset

variable {text : String}

/-- Every offset up to the end of a text is a place in it. -/
theorem exists_position? (h : offset ≤ text.utf8ByteSize) :
    ∃ p, (LineIndex.ofText text).position? offset = some p ∧ p.offset = offset ∧
      p.StandsIn text := by
  obtain ⟨finished, line, hline, hcount, hlast⟩ :=
    exists_unfinished_of_feedsFrom (encode text.toList) 0 offset
  rw [Nat.sub_zero] at hline
  have hlength := congrArg List.length hline.bytes_eq
  rw [List.length_take, Utf8.length_encode, Nat.min_eq_left h, List.length_append] at hlength
  -- the first line begins at the beginning, before all others
  have hstarts : (LineIndex.ofText text).starts.takeWhile (fun s => s ≤ offset) =
      0 :: (feedsFrom 0 (encode text.toList)).takeWhile (fun s => s ≤ offset) := by
    rw [LineIndex.ofText, lineStartsFrom_eq]
    exact List.takeWhile_cons_of_pos (by simp)
  have hstart : ((feedsFrom 0 (encode text.toList)).takeWhile fun s => s ≤ offset).getLast?.getD 0 =
      finished.length := by
    rw [hlast]
    split
    · next hnil => rw [hnil]; rfl
    · rw [Option.getD_some, Nat.zero_add]
  refine ⟨⟨finished.count lineFeed, offset - finished.length, offset⟩, ?_, rfl, ?_, ?_⟩
  · rw [LineIndex.position?, if_neg (by simpa [LineIndex.ofText] using h), hstarts]
    simp only [List.getLast?_cons, Option.map_some, hstart, List.length_cons, hcount,
      Nat.add_sub_cancel]
  · rw [hline.bytes_eq, List.count_append, List.count_eq_zero_of_not_mem hline.unfinished,
      Nat.add_zero]
  · exact ⟨finished, line, hline, by dsimp only; omega⟩

/-- Of two places in a text, the one with the smaller offset comes first. -/
theorem Position.StandsIn.le {p q : Position} (hp : p.StandsIn text) (hq : q.StandsIn text)
    (h : p.offset ≤ q.offset) : p.line < q.line ∨ p.line = q.line ∧ p.column ≤ q.column := by
  obtain ⟨between, hbytes⟩ : ∃ between, (encode text.toList).take q.offset =
      (encode text.toList).take p.offset ++ between := by
    refine ⟨((encode text.toList).take q.offset).drop p.offset, ?_⟩
    have hfront : (encode text.toList).take p.offset =
        ((encode text.toList).take q.offset).take p.offset := by
      rw [List.take_take, Nat.min_eq_left h]
    rw [hfront, List.take_append_drop]
  have hcount := congrArg (List.count lineFeed) hbytes
  rw [List.count_append, ← hp.line, ← hq.line] at hcount
  by_cases hfeed : lineFeed ∈ between
  · left
    have hpos := List.count_pos_iff.mpr hfeed
    omega
  · -- without a line feed in between, both are in the same line
    right
    rw [List.count_eq_zero_of_not_mem hfeed] at hcount
    obtain ⟨finished, line, hline, hcolumn⟩ := hp.column
    obtain ⟨finished', line', hline', hcolumn'⟩ := hq.column
    rw [hbytes] at hline'
    have hlength := congrArg List.length ((hline.append hfeed).unique hline').1
    constructor
    · omega
    · omega

/-! ## Elements of a text -/

namespace Cursor

theorem root_mem_nodes (source : String) :
    ofTree (parse source).tree ∈ (ofTree (parse source).tree).nodes := by
  obtain ⟨children, hroot⟩ : ∃ children, (parse source).tree = .node .sourceFile children :=
    ⟨_, rfl⟩
  apply mem_nodes_self (show _ = some NodeKind.sourceFile from ?_)
  rw [ofTree, hroot]
  rfl

/-- A node of a text begins and ends somewhere in it, at the ends of its trimmed span, and it does
    not begin behind its end. -/
theorem exists_location {source : String} {c : Cursor}
    (hc : c ∈ (ofTree (parse source).tree).nodes) :
    ∃ first last, c.location = ⟨some first, some last⟩ ∧
      first.offset = c.trimmedSpan.start ∧ first.StandsIn c.root.text ∧
      last.offset = c.trimmedSpan.stop ∧ last.StandsIn c.root.text ∧
      (first.line < last.line ∨ first.line = last.line ∧ first.column ≤ last.column) := by
  obtain ⟨-, horder, hstop⟩ := trimmedSpan_bounds hc
  have hwithin := Within.root.of_mem_nodes hc
  have hsize : c.span.stop ≤ c.root.text.utf8ByteSize := by
    rw [hwithin.root_eq]
    have hle := hwithin.stop_le
    rwa [Tree.size_eq (parse source).tree, Token.totalSize_eq] at hle
  have hstart : c.trimmedSpan.start ≤ c.root.text.utf8ByteSize := by omega
  obtain ⟨first, hfirst, hfirstoffset, hfirstin⟩ := exists_position? hstart
  obtain ⟨last, hlast, hlastoffset, hlastin⟩ := exists_position? (Nat.le_trans hstop hsize)
  refine ⟨first, last, ?_, hfirstoffset, hfirstin, hlastoffset, hlastin, ?_⟩
  · rw [location, LineIndex.locate, hfirst, hlast]
  · exact hfirstin.le hlastin (by omega)

end Cursor

/-! ## Histories -/

namespace LineCache

variable {ι : Type}

/-- What can be asked: where an element of the tree with a given root stands, and to forget the line
    starts. -/
inductive Request (ι : Type) where
  | locate (root : ι) (c : Cursor)
  | reset

namespace Request

/-- What a request should be answered, whatever was asked before. -/
def answer : Request ι → Option Location
  | locate _ c => some c.location
  | reset => none

/-- Two requests that name the same root are about elements of the same tree. -/
def Agree : Request ι → Request ι → Prop
  | locate root c, locate root' c' => root = root' → c.root = c'.root
  | _, _ => True

end Request

/-- No tree has the root of another one while line starts are kept for it. Behind a request they are
    those of the tree that it was about, so it is the next request that may meet them. -/
def RootsUnique (rs : List (Request ι)) : Prop := rs.IsChain Request.Agree

variable [DecidableEq ι] {s : LineCache ι}

/-- The answer to a request and the line starts that are kept behind it. -/
def serve (s : LineCache ι) : Request ι → Option Location × LineCache ι
  | .locate root c => ((s.locate root c).1, (s.locate root c).2)
  | .reset => (none, s.reset)

/-- The answers to requests that are made one after the other. -/
def answers (s : LineCache ι) : List (Request ι) → List (Option Location)
  | [] => []
  | r :: rs => (s.serve r).1 :: answers (s.serve r).2 rs

/-- If a request is about the root that line starts are kept for, then these are the line starts of
    its tree. -/
def Serves (s : LineCache ι) : Request ι → Prop
  | .locate root c => ∀ i, s.index = some (root, i) → i = .ofText c.root.text
  | .reset => True

/-- A service answers from the line starts of the element's own text, and then keeps these. -/
theorem locate_eq {root : ι} {c : Cursor} (h : s.Serves (.locate root c)) :
    s.locate root c = (c.location, ⟨some (root, .ofText c.root.text)⟩) := by
  have hindex : s.indexFor root c = .ofText c.root.text := by
    rw [indexFor]
    cases hs : s.index with
    | none => rfl
    | some kept =>
      obtain ⟨root', i⟩ := kept
      by_cases hroot : root' = root
      · subst hroot
        have hi : i = .ofText c.root.text := h i hs
        simp [isBuiltFor, hs, hi]
      · simp [isBuiltFor, hs, hroot]
  rw [locate, hindex]
  rfl

/-- A request is answered rightly, and behind it the next one can be. -/
theorem serve_eq {r : Request ι} (h : s.Serves r) :
    (s.serve r).1 = r.answer ∧ ∀ r', r.Agree r' → (s.serve r).2.Serves r' := by
  cases r with
  | locate root c =>
    rw [serve, locate_eq h]
    refine ⟨rfl, fun r' hagree => ?_⟩
    cases r' with
    | reset => trivial
    | locate root' c' =>
      intro i hi
      obtain ⟨rfl, rfl⟩ := Prod.mk.inj (Option.some.inj hi)
      rw [hagree rfl]
  | reset =>
    refine ⟨rfl, fun r' _ => ?_⟩
    cases r' with
    | reset => trivial
    | locate root' c' => exact fun i hi => nomatch hi

theorem answers_eq {r : Request ι} {rs : List (Request ι)} (h : s.Serves r)
    (hunique : RootsUnique (r :: rs)) :
    s.answers (r :: rs) = (r :: rs).map Request.answer := by
  induction rs generalizing s r with
  | nil =>
    rw [answers, answers, (serve_eq h).1, List.map_cons, List.map_nil]
  | cons r' rs ih =>
    obtain ⟨hanswer, hnext⟩ := serve_eq h
    obtain ⟨hagree, hrest⟩ := List.isChain_cons_cons.mp hunique
    rw [answers, hanswer, ih (hnext r' hagree) hrest]
    rfl

/-- Whatever nodes of whatever texts are asked about, in whatever order and with whatever resets in
    between: every answer is the location of the node, which depends on the node alone. It is fully
    known, its offsets are the ends of the trimmed span of the node, its lines and columns are those
    of the text that the node belongs to, and its end does not come before its beginning. Roots may
    be told apart by anything that is no root of another tree as long as line starts are kept for
    it. -/
theorem locations_of_history {rs : List (Request ι)}
    (hnodes : ∀ root c, .locate root c ∈ rs →
      ∃ source, c ∈ (Cursor.ofTree (parse source).tree).nodes) (hunique : RootsUnique rs) :
    answers {} rs = rs.map Request.answer ∧
    ∀ root c, .locate root c ∈ rs →
      ∃ first last, c.location = ⟨some first, some last⟩ ∧
        first.offset = c.trimmedSpan.start ∧ first.StandsIn c.root.text ∧
        last.offset = c.trimmedSpan.stop ∧ last.StandsIn c.root.text ∧
        (first.line < last.line ∨ first.line = last.line ∧ first.column ≤ last.column) := by
  refine ⟨?_, fun root c hc => ?_⟩
  · cases rs with
    | nil => rfl
    | cons r rs =>
      have hempty : Serves {} r := by
        cases r with
        | locate root c => exact fun i hi => nomatch hi
        | reset => trivial
      exact answers_eq hempty hunique
  · obtain ⟨source, hsource⟩ := hnodes root c hc
    exact Cursor.exists_location hsource

/-- Two texts in turn. Behind the reset, the second tree has got the place of the first one. -/
theorem locations_of_two_texts :
    ∃ first second : Cursor, first = .ofTree (parse "let a = 1").tree ∧
      second = .ofTree (parse "\n\nlet b = 2").tree ∧
      RootsUnique [.locate 0 first, .locate 0 first, .locate 1 second, .locate 0 first, .reset,
        .locate 0 second] ∧
      answers {} [.locate 0 first, .locate 0 first, .locate 1 second, .locate 0 first, .reset,
          .locate 0 second] =
        [some first.location, some first.location, some second.location, some first.location, none,
          some second.location] := by
  obtain ⟨first, hfirst⟩ : ∃ c, c = Cursor.ofTree (parse "let a = 1").tree := ⟨_, rfl⟩
  obtain ⟨second, hsecond⟩ : ∃ c, c = Cursor.ofTree (parse "\n\nlet b = 2").tree := ⟨_, rfl⟩
  refine ⟨first, second, hfirst, hsecond, ?_⟩
  have hunique : RootsUnique [.locate 0 first, .locate 0 first, .locate 1 second, .locate 0 first,
      .reset, .locate 0 second] := by
    simp [RootsUnique, Request.Agree]
  refine ⟨hunique, (locations_of_history (fun root c hc => ?_) hunique).1⟩
  have hcase : c = first ∨ c = second := by
    simp only [List.mem_cons, Request.locate.injEq, List.not_mem_nil, reduceCtorEq] at hc
    tauto
  rcases hcase with rfl | rfl
  · rw [hfirst]
    exact ⟨_, Cursor.root_mem_nodes _⟩
  · rw [hsecond]
    exact ⟨_, Cursor.root_mem_nodes _⟩

end LineCache

namespace LocationService

variable {s : LocationService}

/-- The line starts at hand are those of the text that they are kept for. -/
def IsBuilt (s : LocationService) : Prop :=
  ∀ text i, s.index = some (text, i) → i = LineIndex.ofText text

theorem isBuilt_empty : IsBuilt {} := fun _ _ hi => nomatch hi

/-- Where roots are told apart by their texts, line starts that are kept for a root are its own. -/
theorem locate_eq (hs : s.IsBuilt) (c : Cursor) :
    s.locate c = (c.location, ⟨some (c.root.text, .ofText c.root.text)⟩) :=
  LineCache.locate_eq (hs c.root.text)

end LocationService

end SwiftOutline
