/-
  SwiftOutline.Proofs.Token.Tiling

  The tokens of a text cover it without gap or overlap: their spans follow each
  other from the first byte to the last, end between characters, and hold the
  texts of the tokens. Marks that stand side by side are tokens of their own.
-/
import SwiftOutline.Proofs.Token.Lexer

namespace SwiftOutline

/-! ## Spans side by side -/

/-- The spans are not empty and follow each other from `start` to `stop`. -/
def Span.Tile : (start : Nat) → List Span → (stop : Nat) → Prop
  | start, [], stop => start = stop
  | start, s :: rest, stop => s.start = start ∧ s.start < s.stop ∧ Tile s.stop rest stop

namespace Token

/-- The ends of `span` stand between characters of `source`, and `t` has the bytes between them
    for its text. -/
structure StandsAt (source : String) (span : Span) (t : Token) : Prop where
  start_valid : String.Pos.Raw.IsValid source ⟨span.start⟩
  stop_valid : String.Pos.Raw.IsValid source ⟨span.stop⟩
  extract_eq : source.toByteArray.extract span.start span.stop = t.text.toByteArray

/-! ## Laying out tokens -/

theorem size_pos {t : Token} (h : t.text ≠ "") : 0 < t.size := by
  have hne : t.text.utf8ByteSize ≠ 0 := by simpa using h
  exact Nat.pos_of_ne_zero hne

theorem tile_layout {ts : List Token} (h : ∀ t ∈ ts, t.text ≠ "") (start : Nat) :
    Span.Tile start ((layout start ts).map Prod.fst) (start + totalSize ts) := by
  induction ts generalizing start with
  | nil => rfl
  | cons t ts ih =>
    have hpos := size_pos (h t List.mem_cons_self)
    refine ⟨rfl, by show start < start + t.size; omega, ?_⟩
    rw [totalSize, ← Nat.add_assoc]
    exact ih (fun u hu => h u (List.mem_cons_of_mem t hu)) (start + t.size)

theorem totalSize_eq (ts : List Token) :
    totalSize ts = (String.join (ts.map text)).utf8ByteSize := by
  induction ts with
  | nil => simp [totalSize]
  | cons t ts ih =>
    rw [List.map_cons, String.join_cons, String.utf8ByteSize_append, totalSize, ih]
    rfl

/-- Tokens stand where they are laid out in a text that goes on with them behind `before`. -/
theorem standsAt_layout (before : String) (ts : List Token) :
    ∀ p ∈ layout before.utf8ByteSize ts,
      StandsAt (before ++ String.join (ts.map text)) p.1 p.2 := by
  induction ts generalizing before with
  | nil => simp [layout]
  | cons t ts ih =>
    intro p hp
    rw [List.map_cons, String.join_cons, ← String.append_assoc]
    rcases List.mem_cons.mp hp with rfl | hp
    · refine ⟨?_, ?_, ?_⟩
      · exact String.Pos.Raw.isValid_iff_exists_append.mpr
          ⟨before, t.text ++ String.join (ts.map text), String.append_assoc, rfl⟩
      · exact String.Pos.Raw.isValid_iff_exists_append.mpr
          ⟨before ++ t.text, String.join (ts.map text), rfl,
            String.Pos.Raw.ext (String.utf8ByteSize_append).symm⟩
      · have hsize : before.utf8ByteSize + t.size = (before ++ t.text).toByteArray.size := by
          rw [String.size_toByteArray, String.utf8ByteSize_append]
          rfl
        show ((before ++ t.text) ++ _).toByteArray.extract _ (before.utf8ByteSize + t.size) = _
        rw [String.toByteArray_append, hsize, ByteArray.extract_append_size_left,
          String.toByteArray_append]
        exact ByteArray.extract_append_eq_right rfl (ByteArray.size_append)
    · have hnext := ih (before ++ t.text) p
      rw [String.utf8ByteSize_append] at hnext
      exact hnext hp

/-! ## Splitting runs of marks -/

/-- What every token of a text is like. -/
structure Proper (t : Token) : Prop where
  text_ne : t.text ≠ ""
  kind_ne_eof : t.kind ≠ .eof
  not_marks : t.kind = .operator → ∃ c ∈ t.text.toList, isMark c = false

theorem markKind_cases (c : Char) :
    markKind c = .question ∨ markKind c = .exclamation ∨ markKind c = .gt := by
  unfold markKind
  split <;> simp

theorem proper_mark (c : Char) : Proper ⟨markKind c, String.singleton c⟩ := by
  refine ⟨by simp, ?_, ?_⟩ <;>
  · rcases markKind_cases c with h | h | h <;> simp [h]

/-- An operator of marks alone is a run of two or more, so it is split. -/
theorem isPostfixRun_of_match {c : Char} {cs : List Char} {k : TokenKind} {n : Nat}
    (h : Lexer.Match c cs k n) (hk : k = .operator)
    (hmarks : ∀ d ∈ c :: cs.take n, isMark d = true) :
    isPostfixRun ⟨k, String.ofList (c :: cs.take n)⟩ = true := by
  have hn : n ≠ 0 := by
    intro hn
    have hc := hmarks c List.mem_cons_self
    rw [h.not_isMark hk hn] at hc
    exact Bool.false_ne_true hc
  have hlen : (String.ofList (c :: cs.take n)).length = n + 1 := by
    rw [String.length_ofList, List.length_cons, List.length_take, Nat.min_eq_left h.length_le]
  simp only [isPostfixRun, hk, hlen, String.toList_ofList, Bool.and_eq_true, beq_self_eq_true,
    decide_eq_true_eq, List.all_eq_true]
  exact ⟨⟨trivial, by omega⟩, hmarks⟩

theorem proper_parts {c : Char} {cs : List Char} {k : TokenKind} {n : Nat}
    (h : Lexer.Match c cs k n) :
    ∀ t ∈ parts ⟨k, String.ofList (c :: cs.take n)⟩, Proper t := by
  intro t ht
  unfold parts at ht
  split at ht
  · obtain ⟨d, -, rfl⟩ := List.mem_map.mp ht
    exact proper_mark d
  · next hrun =>
    obtain rfl := List.mem_singleton.mp ht
    refine ⟨by simp, h.kind_ne_eof, fun hk => ?_⟩
    rw [String.toList_ofList]
    by_cases hmarks : ∀ d ∈ c :: cs.take n, isMark d = true
    · exact absurd (isPostfixRun_of_match h hk hmarks) hrun
    · obtain ⟨d, hd⟩ := Classical.not_forall.mp hmarks
      obtain ⟨hmem, hmark⟩ := Classical.not_imp.mp hd
      exact ⟨d, hmem, by simpa using hmark⟩

/-- Splitting leaves the text as it is. -/
theorem join_parts (t : Token) : String.join (t.parts.map text) = t.text := by
  unfold parts
  split
  · rw [List.map_map, ← String.toList_inj, String.toList_join, List.flatMap_map]
    simp
  · simp

/-- The marks of a run stand side by side, each one byte wide. -/
theorem layout_marks {cs : List Char} (h : ∀ c ∈ cs, isMark c = true) (start : Nat) :
    layout start (cs.map fun c => ⟨markKind c, String.singleton c⟩) =
      (cs.zipIdx start).map fun p => (⟨p.2, p.2 + 1⟩, ⟨markKind p.1, String.singleton p.1⟩) := by
  induction cs generalizing start with
  | nil => rfl
  | cons c cs ih =>
    have hsize : size ⟨markKind c, String.singleton c⟩ = 1 := by
      have hmark := h c List.mem_cons_self
      simp only [isMark, Bool.or_eq_true, beq_iff_eq] at hmark
      rcases hmark with (rfl | rfl) | rfl <;> rfl
    rw [List.map_cons, layout, hsize, List.zipIdx_cons, List.map_cons]
    exact congrArg _ (ih (fun d hd => h d (List.mem_cons_of_mem c hd)) (start + 1))

end Token

/-! ## Texts -/

namespace Lexer

/-- A text is the tokens found in it, one after the other, and each of them is a match. -/
theorem exists_tokensFrom (skip : Nat) (cs : List Char) (h : skip ≤ cs.length) :
    ∃ ts, tokensFrom? skip cs = some ts ∧
      String.join (ts.map Token.text) = String.ofList (cs.drop skip) ∧
      ∀ t ∈ ts, ∃ c rest n, Match c rest t.kind n ∧ t.text = String.ofList (c :: rest.take n) := by
  induction cs generalizing skip with
  | nil =>
    obtain rfl : skip = 0 := Nat.le_zero.mp h
    exact ⟨[], rfl, by simp, by simp⟩
  | cons c cs ih =>
    cases skip with
    | succ skip => exact ih skip (Nat.le_of_succ_le_succ h)
    | zero =>
      obtain ⟨k, n, htoken, hmatch⟩ := exists_match_token c cs
      obtain ⟨ts, hts, hjoin, hmatches⟩ := ih n hmatch.length_le
      refine ⟨⟨k, String.ofList (c :: cs.take n)⟩ :: ts, by simp [tokensFrom?, htoken, hts], ?_, ?_⟩
      · rw [List.map_cons, String.join_cons, hjoin, ← String.ofList_append, List.cons_append,
          List.take_append_drop, List.drop_zero]
      · intro t ht
        rcases List.mem_cons.mp ht with rfl | ht
        · exact ⟨c, cs, n, hmatch, rfl⟩
        · exact hmatches t ht

end Lexer

/-- Matching never fails. -/
theorem exists_longestMatches (source : String) :
    longestMatches? source = some (longestMatches source) ∧
    String.join ((longestMatches source).map Token.text) = source ∧
    ∀ t ∈ longestMatches source, ∃ c rest n,
      Lexer.Match c rest t.kind n ∧ t.text = String.ofList (c :: rest.take n) := by
  obtain ⟨ts, hts, hjoin, hmatches⟩ := Lexer.exists_tokensFrom 0 source.toList (Nat.zero_le _)
  have heq : longestMatches source = ts := by
    rw [longestMatches, longestMatches?, hts, Option.getD_some]
  rw [heq]
  refine ⟨hts, ?_, hmatches⟩
  rw [hjoin, List.drop_zero, String.ofList_toList]

/-- The tokens of a text make up the text. -/
theorem join_lex (source : String) : String.join ((lex source).map Token.text) = source := by
  have hsplit : ∀ ts : List Token, String.join ((ts.flatMap Token.parts).map Token.text) =
      String.join (ts.map Token.text) := by
    intro ts
    induction ts with
    | nil => rfl
    | cons t ts ih =>
      rw [List.flatMap_cons, List.map_append, String.join_append, ih, Token.join_parts,
        List.map_cons, String.join_cons]
  rw [lex, hsplit, (exists_longestMatches source).2.1]

theorem proper_of_mem_lex {source : String} {t : Token} (h : t ∈ lex source) : t.Proper := by
  obtain ⟨m, hm, ht⟩ := List.mem_flatMap.mp h
  obtain ⟨c, rest, n, hmatch, htext⟩ := (exists_longestMatches source).2.2 m hm
  refine Token.proper_parts hmatch t ?_
  rw [← htext]
  exact ht

/-- The tokens of a text are found, whatever the text. None of them is empty, and their spans begin
    at the start of the text, follow each other and end at its end; every span ends between
    characters and holds the text of its token. No operator consists of the marks `?`, `!` and `>`
    alone: the matches that do are split into tokens of one mark each. -/
theorem lex_tiles (source : String) :
    longestMatches? source = some (longestMatches source) ∧
    Span.Tile 0 ((Token.layout 0 (lex source)).map Prod.fst) source.utf8ByteSize ∧
    (∀ p ∈ Token.layout 0 (lex source), p.2.StandsAt source p.1) ∧
    (∀ t ∈ lex source, t.kind = .operator → ∃ c ∈ t.text.toList, Token.isMark c = false) ∧
    ∀ m ∈ longestMatches source, m.kind = .operator →
      (∀ c ∈ m.text.toList, Token.isMark c = true) →
      ∀ start, Token.layout start m.parts = (m.text.toList.zipIdx start).map fun p =>
        (⟨p.2, p.2 + 1⟩, ⟨Token.markKind p.1, String.singleton p.1⟩) := by
  refine ⟨(exists_longestMatches source).1, ?_, ?_, ?_, ?_⟩
  · have hne : ∀ t ∈ lex source, t.text ≠ "" := fun t ht => (proper_of_mem_lex ht).text_ne
    have htile := Token.tile_layout hne 0
    rw [Token.totalSize_eq, join_lex, Nat.zero_add] at htile
    exact htile
  · have hstands := Token.standsAt_layout "" (lex source)
    rw [join_lex, String.empty_append] at hstands
    exact fun p hp => hstands p hp
  · exact fun t ht hk => (proper_of_mem_lex ht).not_marks hk
  · intro m hm hk hmarks start
    obtain ⟨c, rest, n, hmatch, htext⟩ := (exists_longestMatches source).2.2 m hm
    have hrun : m.isPostfixRun = true := by
      have := Token.isPostfixRun_of_match hmatch hk (by rw [htext] at hmarks; simpa using hmarks)
      rwa [← htext] at this
    rw [Token.parts, if_pos hrun]
    exact Token.layout_marks hmarks start

end SwiftOutline
