/-
  SwiftOutline.Proofs.Token.OneLine

  String literals of one line and their line feeds. A literal that does not end
  ends with its line. One that does holds a line feed in an interpolation or as
  an escaped character, and nowhere else.
-/
import SwiftOutline.Proofs.Token.Locality
import SwiftOutline.Proofs.Token.Pieces

namespace SwiftOutline

open Utf8

/-! ## Pieces -/

namespace Quote

variable {q : Quote} {part : Part} {bs after : List UInt8} {ps : List Piece}

theorem not_mem_mark (q : Quote) : Utf8.byte '\n' ∉ q.mark := by
  simp only [mark, List.mem_cons, List.mem_replicate, not_or, not_and]
  exact ⟨by decide, fun _ => by decide⟩

/-- What holds a line feed in a literal of one line. -/
theorem Reads.breaks (h : Reads part bs ps after) (hpart : part = .body q)
    (hline : q.multiline = false) :
    ∀ p ∈ ps, Utf8.byte '\n' ∈ p.bytes q.mark →
      p = .escaped (Utf8.byte '\n') ∨ ∃ code, p = .interpolation code := by
  induction h with
  | close => exact fun p hp => nomatch hp
  | byte line _ _ _ ih =>
    obtain rfl := Part.body.inj hpart
    refine List.forall_mem_cons.mpr ⟨fun hbreak => ?_, ih rfl⟩
    rw [Piece.bytes, List.mem_singleton] at hbreak
    rw [line hbreak.symm] at hline
    cases hline
  | escaped _ _ ih =>
    obtain rfl := Part.body.inj hpart
    refine List.forall_mem_cons.mpr ⟨fun hbreak => ?_, ih rfl⟩
    rw [Piece.bytes, List.mem_append, List.mem_singleton] at hbreak
    rcases hbreak with hmark | rfl
    · exact (not_mem_mark _ hmark).elim
    · exact .inl rfl
  | interpolation _ _ _ ih =>
    obtain rfl := Part.body.inj hpart
    exact List.forall_mem_cons.mpr ⟨fun _ => .inr ⟨_, rfl⟩, ih rfl⟩
  | closeCode | codeByte | group | literal => cases hpart

end Quote

/-! ## Tokens -/

namespace Lexer

variable {q : Quote} {k : TokenKind} {c : Char} {cs body : List Char} {n opening p : Nat}

theorem mem_encode {d : Char} {b : UInt8} (hd : String.utf8EncodeChar d = [b]) (h : d ∈ cs) :
    b ∈ encode cs :=
  List.mem_flatMap.mpr ⟨d, h, hd ▸ List.mem_singleton_self b⟩

/-- A literal that takes up the whole text either ends at its end or is broken off there, and in a
    literal of one line no line feed stands in front of that. -/
theorem string_whole (hline : q.multiline = false)
    (h : string q opening body = some (k, opening + body.length)) :
    (k = .error ∧ '\n' ∉ body) ∨ (k = .stringLiteral ∧ q.rest? (encode body) = some []) := by
  unfold string at h
  dsimp only at h
  cases hrest : q.rest? (encode body) with
  | some after =>
    simp only [hrest, Option.bind_eq_bind, Option.bind_eq_some_iff, Option.pure_def,
      Option.some.injEq, Prod.mk.injEq] at h
    obtain ⟨m, hm, rfl, hlength⟩ := h
    obtain rfl : m = body.length := by omega
    have hbytes := length_encode_take hm
    rw [List.take_length] at hbytes
    have hleast := Quote.length_le_of_scan hrest
    have hpos := Quote.leastOf_pos (.body q) []
    exact .inr ⟨rfl, congrArg some (List.length_eq_zero_iff.mp (by omega))⟩
  | none =>
    simp only [hrest, Option.bind_eq_bind, Option.bind_eq_some_iff, Option.pure_def,
      Option.some.injEq, Prod.mk.injEq, hline, Bool.false_eq_true, if_false] at h
    obtain ⟨m, hm, rfl, hlength⟩ := h
    obtain rfl : m = body.length := by omega
    have hbytes := length_encode_take hm
    rw [List.take_length] at hbytes
    have hall := (List.takeWhile_prefix (· != byte '\n')).eq_of_length hbytes.symm
    refine .inl ⟨rfl, fun hmem => ?_⟩
    have hbreak := List.takeWhile_eq_self_iff.mp hall _ (mem_encode rfl hmem)
    exact bne_iff_ne.mp hbreak rfl

/-- The token that opens a literal of one line. -/
theorem token_string (hopen : c :: cs = List.replicate p '#' ++ '"' :: body)
    (hsingle : opensMultiline body = false) : token c cs = string ⟨false, p⟩ p body := by
  cases p with
  | zero =>
    obtain ⟨rfl, rfl⟩ := List.cons.inj hopen
    show (if opensMultiline cs then _ else _) = _
    rw [if_neg (by simp [hsingle])]
  | succ p =>
    obtain ⟨rfl, hcs⟩ := List.cons.inj hopen
    obtain rfl : cs = List.replicate p '#' ++ '"' :: body := hcs
    have hpounds : (List.replicate p '#' ++ '"' :: body).takeWhile (· == '#') =
        List.replicate p '#' :=
      takeWhile_append_stop (by simp) (by simp)
    show pound _ = _
    unfold pound
    dsimp only
    rw [hpounds, List.length_replicate, List.drop_left' List.length_replicate]
    exact if_neg (by simp [hsingle])

/-- What a text that is one token begins with takes up the whole text. -/
theorem token_of_lex {l : String} {k' : TokenKind} (h : lex l = [⟨k, l⟩]) (hl : l.toList = c :: cs)
    (htoken : token c cs = some (k', n)) (hk : k' ≠ .operator) :
    token c cs = some (k, cs.length) := by
  obtain ⟨_, _, htoken', hmatch⟩ := exists_match_token c cs
  rw [htoken] at htoken'
  obtain ⟨rfl, rfl⟩ := Prod.mk.inj (Option.some.inj htoken')
  have hlength : (cs.take n).length = n := by
    rw [List.length_take, Nat.min_eq_left hmatch.length_le]
  have hmatched : token c (cs.take n ++ cs.drop n) = some (k', (cs.take n).length) := by
    rw [List.take_append_drop, hlength, htoken]
  have htokens := tokensOf_of_kind hmatched hk
  rw [List.take_append_drop, ← hl, ← lex_eq_tokensOf, h] at htokens
  obtain ⟨rfl, htext⟩ := Token.mk.inj (List.cons.inj htokens).1
  have hall : cs = cs.take n := by
    rw [htext, String.toList_ofList] at hl
    exact (List.cons.inj hl).2.symm
  rw [htoken, ← hlength, ← hall]

end Lexer

/-- A token that a quote opens, with pound signs or not, but not three quotes, is either an error
    that holds no line feed, or a string literal in which line feeds stand only in interpolations
    and right behind what begins an escape. -/
theorem breaks_of_mem_lex {source : String} {t : Token} {p : Nat} {body : List Char}
    (ht : t ∈ lex source) (hopen : t.text.toList = List.replicate p '#' ++ '"' :: body)
    (hsingle : Lexer.opensMultiline body = false) :
    (t.kind = .error ∧ '\n' ∉ t.text.toList) ∨
    (t.kind = .stringLiteral ∧ ∃ ps, Quote.Reads (.body ⟨false, p⟩) (encode body) ps [] ∧
      encode body = Quote.bytesOf (Quote.mark ⟨false, p⟩) ps ++ Quote.closer ⟨false, p⟩ ∧
      ∀ piece ∈ ps, byte '\n' ∈ piece.bytes (Quote.mark ⟨false, p⟩) →
        piece = .escaped (byte '\n') ∨ ∃ code, piece = .interpolation code) := by
  obtain ⟨c, cs, hcs⟩ : ∃ c cs, t.text.toList = c :: cs :=
    List.exists_cons_of_ne_nil (by rw [hopen]; simp)
  have hlength : cs.length = p + body.length := by
    have hsame := congrArg List.length (hcs.symm.trans hopen)
    simp only [List.length_cons, List.length_append, List.length_replicate] at hsame
    omega
  have hstring := Lexer.token_string (hcs.symm.trans hopen) hsingle
  obtain ⟨k, n, htoken, -⟩ := Lexer.exists_match_token c cs
  have hkind : k ≠ .operator := by
    rw [hstring] at htoken
    rcases Lexer.literal_or_error_of_string htoken with rfl | rfl <;> decide
  have hwhole := Lexer.token_of_lex (lex_text_of_mem_lex ht) hcs htoken hkind
  rw [hstring, hlength] at hwhole
  rcases Lexer.string_whole rfl hwhole with ⟨hkind, hbody⟩ | ⟨hkind, hrest⟩
  · refine .inl ⟨hkind, ?_⟩
    rw [hopen]
    simpa using hbody
  · obtain ⟨ps, hps⟩ := Quote.exists_reads_of_rest? hrest
    have hbytes := hps.bytes_eq
    rw [List.append_nil] at hbytes
    exact .inr ⟨hkind, ps, hps, hbytes, hps.breaks rfl rfl⟩

/-- An escaped line feed and one in an interpolation. -/
theorem breaks_of_mem_lex_raw :
    ∃ t ∈ lex "a = #\"\\#\n\\#(b\n)\"# c",
      t.text.toList = List.replicate 1 '#' ++ '"' :: "\\#\n\\#(b\n)\"#".toList ∧
      Lexer.opensMultiline "\\#\n\\#(b\n)\"#".toList = false ∧
      ((t.kind = .error ∧ '\n' ∉ t.text.toList) ∨
      (t.kind = .stringLiteral ∧ ∃ ps,
        Quote.Reads (.body ⟨false, 1⟩) (encode "\\#\n\\#(b\n)\"#".toList) ps [] ∧
        encode "\\#\n\\#(b\n)\"#".toList =
          Quote.bytesOf (Quote.mark ⟨false, 1⟩) ps ++ Quote.closer ⟨false, 1⟩ ∧
        ∀ piece ∈ ps, byte '\n' ∈ piece.bytes (Quote.mark ⟨false, 1⟩) →
          piece = .escaped (byte '\n') ∨ ∃ code, piece = .interpolation code)) := by
  have ht : ⟨.stringLiteral, "#\"\\#\n\\#(b\n)\"#"⟩ ∈ lex "a = #\"\\#\n\\#(b\n)\"# c" := by
    decide +kernel
  exact ⟨_, ht, rfl, rfl, breaks_of_mem_lex ht rfl rfl⟩

/-- A backslash at the end of the line, and the literal goes on in the next one without any
    interpolation. -/
theorem lex_backslash_line_feed :
    lex "\"\\\n\"" = [⟨.stringLiteral, "\"\\\n\""⟩] ∧
      "\"\\\n\"".toList = '"' :: "\\\n\"".toList ∧
      Lexer.opensMultiline "\\\n\"".toList = false ∧
      '\n' ∈ "\"\\\n\"".toList ∧ '(' ∉ "\"\\\n\"".toList := by
  decide +kernel

end SwiftOutline
