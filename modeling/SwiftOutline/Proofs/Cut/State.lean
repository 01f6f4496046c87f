/-
  SwiftOutline.Proofs.Cut.State

  Texts that are cut off. A run on a text and a run on a front part of it look at
  the same lexemes for as long as these stand before the cut. What has to be
  known besides is that brackets which are opened before the cut are closed
  before it: then looking ahead for a closing bracket does not go past it.
-/
import Mathlib.Data.List.Infix
import SwiftOutline.Proofs.Parser.Balance
import SwiftOutline.Proofs.Parser.Introduced
import SwiftOutline.Proofs.Parser.Placed

namespace SwiftOutline

/-! ## Brackets -/

/-- If `n` closing brackets are to come behind `ls`, all brackets that are opened in `ls` are
    closed, and at least `m` closing ones are left over for brackets that are opened before `ls`. -/
inductive Lexeme.Closes : List Lexeme → (n m : Nat) → Prop where
  | nil {n m : Nat} (h : m ≤ n) : Closes [] n m
  | opener {l : Lexeme} {ls : List Lexeme} {n m : Nat} (hl : l.kind.isOpener = true)
      (rest : Closes ls n (m + 1)) : Closes (l :: ls) n m
  | closer {l : Lexeme} {ls : List Lexeme} {n m k : Nat} (hl : l.kind.isCloser = true)
      (rest : Closes ls n k) (h : m ≤ k + 1) : Closes (l :: ls) n m
  | plain {l : Lexeme} {ls : List Lexeme} {n m : Nat} (ho : l.kind.isOpener = false)
      (hc : l.kind.isCloser = false) (rest : Closes ls n m) : Closes (l :: ls) n m

namespace Lexeme.Closes

variable {ls ms : List Lexeme} {n m k i : Nat}

/-- Less may be asked for. -/
theorem mono (h : Closes ls n m) (hk : k ≤ m) : Closes ls n k := by
  induction h generalizing k with
  | nil h => exact .nil (Nat.le_trans hk h)
  | opener hl _ ih => exact .opener hl (ih (Nat.succ_le_succ hk))
  | closer hl rest h _ => exact .closer hl rest (Nat.le_trans hk h)
  | plain ho hc _ ih => exact .plain ho hc (ih hk)

/-- What comes behind may close more than is opened. -/
theorem shift (h : Closes ls n m) (i : Nat) : Closes ls (n + i) (m + i) := by
  induction h with
  | nil h => exact .nil (Nat.add_le_add_right h i)
  | @opener _ _ _ m hl _ ih =>
    refine .opener hl ?_
    rwa [Nat.add_right_comm] at ih
  | closer hl _ h ih => exact .closer hl ih (by omega)
  | plain ho hc _ ih => exact .plain ho hc ih

theorem append (h : Closes ls k m) (h' : Closes ms n k) : Closes (ls ++ ms) n m := by
  induction h with
  | nil h => exact h'.mono h
  | opener hl _ ih => exact .opener hl (ih h')
  | closer hl _ h ih => exact .closer hl (ih h') h
  | plain ho hc _ ih => exact .plain ho hc (ih h')

/-- A front part is closed by what comes behind it. -/
theorem exists_of_append (h : Closes (ls ++ ms) n m) : ∃ k, Closes ls k m ∧ Closes ms n k := by
  induction ls generalizing m with
  | nil => exact ⟨m, .nil (Nat.le_refl m), h⟩
  | cons l ls ih =>
    cases h with
    | opener hl rest =>
      obtain ⟨k, hk, hms⟩ := ih rest
      exact ⟨k, .opener hl hk, hms⟩
    | closer hl rest hm =>
      obtain ⟨k, hk, hms⟩ := ih rest
      exact ⟨k, .closer hl hk hm, hms⟩
    | plain ho hc rest =>
      obtain ⟨k, hk, hms⟩ := ih rest
      exact ⟨k, .plain ho hc hk, hms⟩

/-- A closing bracket that is left over closes nothing before it. -/
theorem exists_closer (h : Closes ls 0 (m + 1)) :
    ∃ (front : List Lexeme) (l : Lexeme) (rest : List Lexeme), ls = front ++ l :: rest ∧
      l.kind.isCloser = true ∧ Closes front 0 m := by
  induction ls generalizing m with
  | nil => cases h with | nil h => omega
  | cons l ls ih =>
    cases h with
    | opener hl inside =>
      obtain ⟨front, c, rest, rfl, hc, hfront⟩ := ih inside
      exact ⟨l :: front, c, rest, rfl, hc, .opener hl hfront⟩
    | @closer _ _ _ _ k hl inside hm =>
      cases m with
      | zero => exact ⟨[], l, ls, rfl, hl, .nil (Nat.le_refl 0)⟩
      | succ m =>
        obtain ⟨front, c, rest, rfl, hc, hfront⟩ := ih (inside.mono (k := m + 1) (by omega))
        exact ⟨l :: front, c, rest, rfl, hc, .closer hl hfront (Nat.le_refl _)⟩
    | plain ho hc inside =>
      obtain ⟨front, c, rest, rfl, hc', hfront⟩ := ih inside
      exact ⟨l :: front, c, rest, rfl, hc', .plain ho hc hfront⟩

end Lexeme.Closes

/-! ## Cuts -/

/-- Where a text is cut off, and what is left out before the front part. -/
structure Cut where
  /-- Number of lexemes behind the cut. -/
  behind : Nat
  /-- Number of `#if` blocks around the front part. -/
  outer : Nat

/-- An operator that begins a line. Whether it goes on with the line before depends on the gap
    behind it. -/
def Lexeme.leadsLine (l : Lexeme) : Bool :=
  l.gap.newline && match l.kind with
    | .operator | .eq | .lt | .gt | .amp | .ellipsis | .arrow => true
    | _ => false

/-- Behind no `throws` a parenthesis directly follows. -/
def Lookahead.Untyped (ls : List Lexeme) : Prop :=
  ∀ l rest, l :: rest <:+ ls → atThrows [l] = true → seesJoined .lParen rest = false

/-- Lexemes that can be cut off: attributes are plain, no thrown types are told, and the last lexeme
    before the cut is no operator that begins a line. -/
structure Cuttable (c : Cut) (ls : List Lexeme) : Prop where
  noEnd : ∀ l ∈ ls, l.kind ≠ .eof
  plain : ∀ l rest, l :: rest <:+ ls → l.kind = .atSign → Lookahead.PlainAttribute (l :: rest)
  untyped : Lookahead.Untyped ls
  last : ∀ l rest, l :: rest <:+ ls → rest.length = c.behind → l.leadsLine = false

theorem Cuttable.suffix {c : Cut} {ls ms : List Lexeme} (h : Cuttable c ls) (hms : ms <:+ ls) :
    Cuttable c ms :=
  ⟨fun l hl => h.noEnd l (hms.subset hl), fun l rest hl => h.plain l rest (hl.trans hms),
    fun l rest hl => h.untyped l rest (hl.trans hms), fun l rest hl => h.last l rest (hl.trans hms)⟩

/-- Lexemes can be cut off anywhere if there are no attributes, no `throws` and no operators that
    begin a line. -/
theorem Cuttable.of_forall {c : Cut} {ls : List Lexeme} (h : ∀ l ∈ ls, l.kind ≠ .eof ∧
    l.kind ≠ .atSign ∧ Lookahead.atThrows [l] = false ∧ l.leadsLine = false) : Cuttable c ls where
  noEnd l hl := (h l hl).1
  plain l _ hl hk := absurd hk (h l (hl.subset List.mem_cons_self)).2.1
  untyped l _ hl hthrows :=
    absurd ((h l (hl.subset List.mem_cons_self)).2.2.1.symm.trans hthrows) Bool.false_ne_true
  last l _ hl _ := (h l (hl.subset List.mem_cons_self)).2.2.2

namespace View

variable {c : Cut} {v : View} {n : Nat}

/-- What can be seen of the front part. -/
def cut (c : Cut) (v : View) : View :=
  ⟨v.lexemes.take (v.lexemes.length - c.behind), .none, v.directives - c.outer⟩

theorem getElem?_cut (h : c.behind + n < v.lexemes.length) :
    (v.cut c).lexemes[n]? = v.lexemes[n]? := by
  rw [cut, List.getElem?_take, if_pos (by omega)]

theorem getElem?_cut_none (h : v.lexemes.length ≤ c.behind + n) :
    (v.cut c).lexemes[n]? = none := by
  rw [cut, List.getElem?_take, if_neg (by omega)]

theorem kindAt_cut (h : c.behind + n < v.lexemes.length) : (v.cut c).kindAt n = v.kindAt n := by
  rw [kindAt, kindAt, getElem?_cut h]

theorem kindAt_cut_end (h : v.lexemes.length ≤ c.behind + n) : (v.cut c).kindAt n = .eof := by
  rw [kindAt, getElem?_cut_none h]

/-- What is seen stands before the cut. -/
theorem lt_of_kindAt_cut (v : View) (h : (v.cut c).kindAt n ≠ .eof) :
    c.behind + n < v.lexemes.length := by
  by_cases hlt : c.behind + n < v.lexemes.length
  · exact hlt
  · exact absurd (kindAt_cut_end (Nat.le_of_not_lt hlt)) h

theorem kind_of_cut {k : TokenKind} (h : (v.cut c).kind = k) (hk : (k == .eof) = false) :
    v.kind = k := by
  rw [← h]
  refine (kindAt_cut (lt_of_kindAt_cut v fun heof => ?_)).symm
  rw [← h, show (v.cut c).kind = .eof from heof] at hk
  cases hk

theorem textAt_cut (h : c.behind + n < v.lexemes.length) : (v.cut c).textAt n = v.textAt n := by
  rw [textAt, textAt, getElem?_cut h]

theorem gapAt_cut (h : c.behind + n < v.lexemes.length) : (v.cut c).gapAt n = v.gapAt n := by
  rw [gapAt, gapAt, getElem?_cut h, List.getElem?_eq_getElem (by omega)]

theorem spellsAt_cut {word : String} (h : c.behind + n < v.lexemes.length) :
    (v.cut c).spellsAt n word = v.spellsAt n word := by
  rw [spellsAt, spellsAt, kindAt_cut h, textAt_cut h]

theorem kind_cut (h : c.behind < v.lexemes.length) : (v.cut c).kind = v.kind := kindAt_cut h

theorem kind_cut_end (h : v.lexemes.length ≤ c.behind) : (v.cut c).kind = .eof :=
  kindAt_cut_end h

theorem text_cut (h : c.behind < v.lexemes.length) : (v.cut c).text = v.text := textAt_cut h

theorem gap_cut (h : c.behind < v.lexemes.length) : (v.cut c).gap = v.gap := gapAt_cut h

theorem spells_cut {word : String} (h : c.behind < v.lexemes.length) :
    (v.cut c).spells word = v.spells word := spellsAt_cut h

theorem seesJoined_cut {k : TokenKind} (h : c.behind < v.lexemes.length) :
    (v.cut c).seesJoined k = v.seesJoined k := by
  rw [seesJoined, seesJoined, kind_cut h, gap_cut h]

theorem atEnd_cut (h : c.behind < v.lexemes.length) : (v.cut c).atEnd = v.atEnd := by
  rw [atEnd, atEnd, kind_cut h]

theorem length_cut (c : Cut) (v : View) :
    (v.cut c).lexemes.length = v.lexemes.length - c.behind := by
  rw [cut, List.length_take]
  exact Nat.min_eq_left (Nat.sub_le _ _)

theorem lexemes_cut_of_zero (h : c.behind = 0) : (v.cut c).lexemes = v.lexemes := by
  rw [cut, h, Nat.sub_zero, List.take_length]

/-- What stands before the cut is followed by what stands behind it. -/
theorem lexemes_eq_cut (c : Cut) (v : View) :
    ∃ rest, v.lexemes = (v.cut c).lexemes ++ rest ∧ (c.behind ≤ v.lexemes.length →
      rest.length = c.behind) := by
  refine ⟨v.lexemes.drop (v.lexemes.length - c.behind), (List.take_append_drop _ _).symm,
    fun h => ?_⟩
  rw [List.length_drop]
  omega

/-- What is seen behind the next lexeme. -/
def tail (v : View) : View := { v with lexemes := v.lexemes.drop 1 }

theorem kindAt_tail (v : View) (n : Nat) : v.tail.kindAt n = v.kindAt (n + 1) := by
  rw [kindAt, kindAt, tail, List.getElem?_drop, Nat.add_comm]

theorem kind_tail (v : View) : v.tail.kind = v.kindAt 1 := kindAt_tail v 0

/-- A lexeme comes next, and no opening bracket. -/
structure AtWord (v : View) : Prop where
  atEnd : v.atEnd = false
  plain : v.kind.isOpener = false

theorem AtWord.of_kind {k : TokenKind} (h : v.kind = k) (hk : (k == .eof) = false)
    (ho : k.isOpener = false) : v.AtWord :=
  ⟨by rw [View.atEnd, h, hk], by rw [h, ho]⟩

theorem AtWord.of_isNameLike (h : v.kind.isNameLike = true) : v.AtWord := by
  constructor
  · rw [View.atEnd]
    revert h
    cases v.kind <;> decide
  · revert h
    cases v.kind <;> decide

theorem AtWord.of_isArgumentLabel (h : v.kind.isArgumentLabel = true) : v.AtWord := by
  constructor
  · rw [View.atEnd]
    revert h
    cases v.kind <;> decide
  · revert h
    cases v.kind <;> decide

theorem AtWord.of_spells {word : String} (h : v.spells word = true) : v.AtWord :=
  .of_kind (eq_of_beq (Bool.and_eq_true_iff.mp h).1) rfl rfl

theorem AtWord.ne (h : v.AtWord) : v.kind ≠ .eof :=
  fun hk => Bool.false_ne_true (h.atEnd.symm.trans (beq_iff_eq.mpr hk))

/-- Before the cut all brackets are closed, and `n` more, if anything stands behind it. -/
def Closes (c : Cut) (n : Nat) (v : View) : Prop :=
  c.behind ≠ 0 → Lexeme.Closes (v.cut c).lexemes 0 n

theorem Closes.mono {m : Nat} (h : v.Closes c n) (hm : m ≤ n) : v.Closes c m :=
  fun hc => (h hc).mono hm

/-- Before the cut stands a closing bracket or a directive, and all brackets that are opened before
    that are closed before it. -/
def Walled (c : Cut) (v : View) : Prop :=
  c.behind ≠ 0 → ∃ (front : List Lexeme) (l : Lexeme) (rest : List Lexeme),
    (v.cut c).lexemes = front ++ l :: rest ∧
      (l.kind.isCloser = true ∨ l.kind.isDirective = true) ∧ Lexeme.Closes front 0 0

/-- If anything stands behind the cut, then it has not been reached. -/
def Before (c : Cut) (v : View) : Prop := c.behind ≠ 0 → c.behind < v.lexemes.length

/-- Where a bracket is to be closed before the cut, the cut has not been reached. -/
theorem Closes.before (h : v.Closes c (n + 1)) (hle : c.behind ≤ v.lexemes.length) :
    v.Before c := by
  intro hc
  refine Nat.lt_of_le_of_ne hle fun heq => ?_
  have hnil : (v.cut c).lexemes = [] := by
    rw [cut, ← heq, Nat.sub_self, List.take_zero]
  have hcloses := h hc
  rw [hnil] at hcloses
  cases hcloses with
  | nil h => exact absurd h (Nat.not_succ_le_zero n)

/-- Where nothing stands behind the cut, all is seen. -/
theorem kindAt_cut' (h : c.behind ≠ 0 → c.behind + n < v.lexemes.length) :
    (v.cut c).kindAt n = v.kindAt n := by
  by_cases hc : c.behind = 0
  · rw [kindAt, kindAt, lexemes_cut_of_zero hc]
  · exact kindAt_cut (h hc)

theorem spellsAt_cut' {word : String} (h : c.behind ≠ 0 → c.behind + n < v.lexemes.length) :
    (v.cut c).spellsAt n word = v.spellsAt n word := by
  by_cases hc : c.behind = 0
  · rw [spellsAt, spellsAt, kindAt, kindAt, textAt, textAt, lexemes_cut_of_zero hc]
  · exact spellsAt_cut (h hc)

/-- A lexeme that is no wall has something behind it before the cut. -/
theorem Walled.lt_succ (h : v.Walled c) (hin : c.behind < v.lexemes.length)
    (hcloser : v.kind.isCloser = false) (hdirective : v.kind.isDirective = false)
    (hc : c.behind ≠ 0) : c.behind + 1 < v.lexemes.length := by
  obtain ⟨front, l, rest, hls, hl, -⟩ := h hc
  have hlength := length_cut c v
  have hkind := kind_cut hin
  rw [hls] at hlength
  rw [kind, kindAt, hls] at hkind
  cases front with
  | nil =>
    rw [← hkind] at hcloser hdirective
    rcases hl with hl | hl
    · exact absurd (hl.symm.trans hcloser) Bool.true_eq_false.mp
    · exact absurd (hl.symm.trans hdirective) Bool.true_eq_false.mp
  | cons x front =>
    rw [List.length_append, List.length_cons, List.length_cons] at hlength
    omega

theorem Before.kind_cut (h : v.Before c) : (v.cut c).kind = v.kind := kindAt_cut' h

/-- Inside of brackets that are closed before the cut, the next lexeme is seen. -/
theorem Closes.kind_cut (h : v.Closes c (n + 1)) (hle : c.behind ≤ v.lexemes.length) :
    (v.cut c).kind = v.kind :=
  (h.before hle).kind_cut

/-- Behind a lexeme that closes nothing, the same brackets are to be closed. -/
theorem Closes.tail (h : v.Closes c (n + 1)) (hle : c.behind ≤ v.lexemes.length)
    (hk : v.kind.isCloser = false) : v.tail.Closes c (n + 1) := by
  intro hc
  have hlt := h.before hle hc
  cases hls : v.lexemes with
  | nil => simp [hls] at hlt
  | cons l rest =>
    have hl : l.kind.isCloser = false := by
      rwa [kind, kindAt, hls] at hk
    rw [hls, List.length_cons] at hlt
    have hcut : (v.cut c).lexemes = l :: (v.tail.cut c).lexemes := by
      rw [cut, cut, View.tail, hls, List.length_cons, Nat.succ_sub (Nat.le_of_lt_succ hlt)]
      rfl
    have hcloses := h hc
    rw [hcut] at hcloses
    cases hcloses with
    | opener _ rest => exact rest.mono (Nat.le_succ _)
    | closer hl' _ _ => rw [hl] at hl'; cases hl'
    | plain _ _ rest => exact rest

/-- Behind a lexeme that closes nothing, the next one is seen as well. -/
theorem Closes.lt_succ (h : v.Closes c (n + 1)) (hle : c.behind ≤ v.lexemes.length)
    (hk : v.kind.isCloser = false) (hc : c.behind ≠ 0) : c.behind + 1 < v.lexemes.length := by
  have hlt := h.before hle hc
  have hlength : v.tail.lexemes.length = v.lexemes.length - 1 := List.length_drop
  have htail := (h.tail hle hk).before (by omega) hc
  omega

theorem Closes.walled (h : v.Closes c (n + 1)) : v.Walled c := by
  intro hc
  obtain ⟨front, l, rest, hls, hl, hfront⟩ := (h hc).exists_closer
  exact ⟨front, l, rest, hls, .inl hl, hfront.mono (Nat.zero_le n)⟩

end View

namespace State

variable {c : Cut} {s t u : State} {n m k i : Nat}

/-- The state of a run on the front part. -/
def cut (c : Cut) (s : State) : State := { s with view := s.view.cut c }

/-- The lexemes that are left can be cut off. -/
structure Lies (c : Cut) (s : State) : Prop where
  lexemes : Cuttable c s.view.lexemes
  outer : c.outer ≤ s.view.directives

/-- What `s` and `t` have between them closes its brackets, if anything stands behind the cut. -/
def Spans (c : Cut) (n m : Nat) (s t : State) : Prop :=
  ∃ used, s.view.lexemes = used ++ t.view.lexemes ∧ (c.behind ≠ 0 → Lexeme.Closes used n m)

/-- A run that has reported nothing and not gone past the cut. Before the cut all brackets are
    closed, and `n` more. -/
structure Bounded (c : Cut) (n : Nat) (s : State) : Prop where
  clean : s.reports = []
  within : c.behind ≤ s.left
  closes : s.view.Closes c n

theorem Lies.of_reaches (h : s.Lies c) (hst : s.Reaches t)
    (hd : t.view.directives = s.view.directives) : t.Lies c :=
  ⟨h.lexemes.suffix hst.suffix, hd ▸ h.outer⟩

theorem Spans.refl (h : m ≤ n) : s.Spans c n m s := ⟨[], rfl, fun _ => .nil h⟩

theorem Spans.trans (h : s.Spans c k m t) (h' : t.Spans c n k u) : s.Spans c n m u := by
  obtain ⟨used, hs, hused⟩ := h
  obtain ⟨used', ht, hused'⟩ := h'
  refine ⟨used ++ used', by rw [hs, ht, List.append_assoc], fun hc => ?_⟩
  exact (hused hc).append (hused' hc)

theorem Spans.shift (h : s.Spans c n m t) (i : Nat) : s.Spans c (n + i) (m + i) t := by
  obtain ⟨used, hs, hused⟩ := h
  exact ⟨used, hs, fun hc => (hused hc).shift i⟩

theorem lexemes_cut_append {used : List Lexeme} (h : s.view.lexemes = used ++ t.view.lexemes)
    (ht : c.behind ≤ t.left) :
    (s.view.cut c).lexemes = used ++ (t.view.cut c).lexemes := by
  have hle : c.behind ≤ t.view.lexemes.length := ht
  rw [View.cut, View.cut, h, List.length_append, Nat.add_sub_assoc hle,
    List.take_length_add_append]

theorem Bounded.mono (h : s.Bounded c n) (hm : m ≤ n) : s.Bounded c m :=
  ⟨h.clean, h.within, h.closes.mono hm⟩

/-- The run was bounded before as well. -/
theorem Bounded.back (h : t.Bounded c (n + i)) (hst : s.Reaches t) (hs : s.Spans c n m t) :
    s.Bounded c (m + i) := by
  obtain ⟨used, hlexemes, hused⟩ := hs
  refine ⟨hst.reports_eq_nil h.clean, Nat.le_trans h.within hst.left_le, fun hc => ?_⟩
  rw [lexemes_cut_append hlexemes h.within]
  exact ((hused hc).shift i).append (h.closes hc)

/-! ### Walls -/

theorem walled_of_kind (h : c.behind < s.left)
    (hk : s.view.kind.isCloser = true ∨ s.view.kind.isDirective = true) : s.view.Walled c := by
  intro _
  have hpos : 0 < (s.view.cut c).lexemes.length := by
    rw [View.length_cut]
    exact Nat.sub_pos_of_lt h
  obtain ⟨l, rest, hls⟩ := List.exists_cons_of_length_pos hpos
  refine ⟨[], l, rest, hls, ?_, .nil (Nat.le_refl 0)⟩
  have hkind : s.view.kind = l.kind := by
    rw [← View.kind_cut h, View.kind, View.kindAt, hls]
    rfl
  rwa [← hkind]

/-- A wall is one for all that comes before it. -/
theorem walled_back (ht : c.behind ≤ t.left) (hs : s.Spans c 0 0 t) (h : t.view.Walled c) :
    s.view.Walled c := by
  intro hc
  obtain ⟨used, hlexemes, hused⟩ := hs
  obtain ⟨front, l, rest, hls, hl, hfront⟩ := h hc
  refine ⟨used ++ front, l, rest, ?_, hl, (hused hc).append hfront⟩
  rw [lexemes_cut_append hlexemes ht, hls, List.append_assoc]

/-! ### Operations -/

theorem view_consume (h : s.view.atEnd = false) : s.consume.view = s.view.tail := by
  obtain ⟨l, rest, hls, -, hconsume⟩ := consume_of_not_atEnd h
  rw [hconsume, View.tail, hls]
  rfl

/-- A lexeme that stands before the cut is consumed in the front part as well. -/
theorem consume_cut (h : s.Lies c) (hwithin : c.behind ≤ s.consume.left) :
    (s.cut c).consume = s.consume.cut c := by
  cases hls : s.view.lexemes with
  | nil =>
    have hend : s.consume = s := by rw [consume, hls]
    have hcut : (s.cut c).view.lexemes = [] := by
      show s.view.lexemes.take _ = []
      rw [hls, List.take_nil]
    rw [hend, consume, hcut]
  | cons l rest =>
    have hl : l.kind ≠ .eof := h.lexemes.noEnd l (by rw [hls]; exact List.mem_cons_self)
    have hconsume : s.consume =
        { s with view := { s.view with lexemes := rest }, built := .leaf l.token :: s.built } := by
      rw [consume, hls]
      simp [hl]
    have hle : c.behind ≤ rest.length := by
      rw [hconsume] at hwithin
      exact hwithin
    have hcut : (s.cut c).view.lexemes = l :: rest.take (rest.length - c.behind) := by
      rw [cut, View.cut, hls, List.length_cons, Nat.succ_sub hle, List.take_succ_cons]
    rw [hconsume, consume, hcut]
    simp [hl, cut, View.cut]

/-- One more `#if` block is one more in the front part. -/
theorem withDirectives_cut (h : c.outer ≤ s.view.directives) :
    (s.cut c).withDirectives ((s.cut c).view.directives + 1) =
      (s.withDirectives (s.view.directives + 1)).cut c := by
  have hsub : s.view.directives - c.outer + 1 = s.view.directives + 1 - c.outer := by omega
  have hview : (⟨(s.view.cut c).lexemes, .none, s.view.directives - c.outer + 1⟩ : View) =
      ⟨(s.view.cut c).lexemes, .none, s.view.directives + 1 - c.outer⟩ := by rw [hsub]
  exact congrArg (fun v => (⟨v, s.built, s.reports⟩ : State)) hview

end State

end SwiftOutline
