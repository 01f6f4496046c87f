/-
  SwiftOutline.Proofs.Events.Source

  What trivia can change. Of a gap between two tokens only matters whether it is
  empty and whether it holds a line feed: parsers that read from the tokens of two
  texts which agree in this and in their other tokens go on side by side. They
  are told the same, whatever they ask, and so write the same events and find the
  same problems at the same tokens.
-/
import Mathlib.Data.List.Basic
import SwiftOutline.Grammar.Source
import SwiftOutline.Proofs.Events.Stream
import SwiftOutline.Proofs.Tree.Mirror
import SwiftOutline.Proofs.Tree.WithoutTrivia

namespace SwiftOutline

open Token (significant)

namespace Source

variable {s s' : Source} {ts front : List Token} {n d : Nat} {t : Token}

/-! ## Behind a token -/

theorem indexIn_succ (n : Nat) (ts : List Token) :
    indexIn (n + 1) ts = (indexIn n (ts.drop (pass ts))).map (pass ts + ·) := by
  induction ts with
  | nil => rfl
  | cons t ts ih =>
    rw [indexIn, pass]
    cases t.isTrivia with
    | true =>
      rw [if_pos rfl, if_pos rfl, ih, List.drop_succ_cons, Option.map_map]
      congr 1
      funext i
      exact Nat.add_right_comm _ _ _
    | false =>
      rw [if_neg Bool.false_ne_true, if_neg Bool.false_ne_true]
      show (indexIn n ts).map (· + 1) = (indexIn n ts).map (1 + ·)
      congr 1
      funext i
      exact Nat.add_comm _ _

/-- Behind a token, the ones behind it come nearer. -/
theorem index?_bump (s : Source) (n : Nat) : s.bump.index? n = s.index? (n + 1) := by
  rw [index?, index?, indexIn_succ, bump, Option.map_map, ← List.drop_drop]
  congr 1
  funext i
  exact Nat.add_assoc _ _ _

theorem token?_bump (s : Source) (n : Nat) : s.bump.token? n = s.token? (n + 1) := by
  rw [token?, token?, index?_bump]
  rfl

/-- A gap does not depend on where the cursor stands. -/
theorem gapBefore_bump (s : Source) (n : Nat) : s.bump.gapBefore n = s.gapBefore (n + 1) := by
  rw [gapBefore, gapBefore, index?_bump]
  rfl

theorem triviaBefore_bump (s : Source) (n : Nat) :
    s.bump.triviaBefore n = s.triviaBefore (n + 1) := by
  rw [triviaBefore, triviaBefore, gapBefore_bump]

theorem newlineBefore_bump (s : Source) (n : Nat) :
    s.bump.newlineBefore n = s.newlineBefore (n + 1) := by
  rw [newlineBefore, newlineBefore, gapBefore_bump]

/-! ## What is ahead -/

theorem indexIn_eq_none : indexIn n ts = none ↔ (significant ts).length ≤ n := by
  induction ts generalizing n with
  | nil => simp [indexIn, significant]
  | cons t ts ih =>
    rw [indexIn]
    cases ht : t.isTrivia with
    | true => simpa [significant, ht] using ih
    | false =>
      cases n with
      | zero => simp [significant, ht]
      | succ n => simpa [significant, ht] using ih

theorem getElem?_indexIn (n : Nat) (ts : List Token) :
    ((indexIn n ts).bind fun i => ts[i]?) = (significant ts)[n]? := by
  induction ts generalizing n with
  | nil => rfl
  | cons t ts ih =>
    have hnext : ∀ n, (((indexIn n ts).map (· + 1)).bind fun i => (t :: ts)[i]?) =
        (significant ts)[n]? := by
      intro n
      rw [Option.bind_map, ← ih n]
      rfl
    rw [indexIn]
    cases ht : t.isTrivia with
    | true => rw [if_pos rfl, hnext, significant, significant, List.filter_cons_of_neg (by simp [ht])]
    | false =>
      rw [if_neg Bool.false_ne_true, significant, List.filter_cons_of_pos (by simp [ht])]
      cases n with
      | zero => rfl
      | succ n => exact hnext n

/-- The tokens ahead are those behind the cursor that are no trivia. -/
theorem token?_eq (s : Source) (n : Nat) :
    s.token? n = (significant (s.tokens.drop s.cursor))[n]? := by
  rw [token?, index?, ← getElem?_indexIn, Option.bind_map]
  congr 1
  funext i
  exact List.getElem?_drop.symm

theorem index?_eq_none : s.index? n = none ↔ s.token? n = none := by
  rw [index?, Option.map_eq_none_iff, indexIn_eq_none, token?_eq, List.getElem?_eq_none_iff]

/-- There are no more tokens ahead than tokens. -/
theorem token?_length (s : Source) (h : s.tokens.length ≤ n) : s.token? n = none := by
  rw [token?_eq, List.getElem?_eq_none_iff]
  have hfilter := List.length_filter_le (fun t => !Token.isTrivia t) (s.tokens.drop s.cursor)
  rw [List.length_drop] at hfilter
  exact Nat.le_trans hfilter (by omega)

/-- Behind the last token there is only the gap at the end. -/
theorem gapBefore_of_none (h : s.token? n = none) :
    s.gapBefore n = trailing s.tokens := by
  rw [gapBefore, index?_eq_none.mpr h, Option.getD_none, List.take_length]

/-! ## Sources that tell the same -/

/-- Two sources that answer every question alike: which token is ahead, and whether there is trivia
    or a line feed before it. -/
structure Twins (s s' : Source) : Prop where
  token : ∀ n, s.token? n = s'.token? n
  trivia : ∀ n, s.triviaBefore n = s'.triviaBefore n
  newline : ∀ n, s.newlineBefore n = s'.newlineBefore n

theorem filterMap_range {α : Type} {f : Nat → Option α} {m : Nat} (h : ∀ i, m ≤ i → f i = none)
    (hn : m ≤ n) : (List.range n).filterMap f = (List.range m).filterMap f := by
  obtain ⟨k, rfl⟩ := Nat.exists_eq_add_of_le hn
  have hmore : (List.range k).filterMap (f ∘ (m + ·)) = [] :=
    List.filterMap_eq_nil_iff.mpr fun i _ => h (m + i) (Nat.le_add_right m i)
  rw [List.range_add, List.filterMap_append, List.filterMap_map, hmore, List.append_nil]

namespace Twins

/-- They do so behind the next token as well. -/
theorem bump (h : Twins s s') : Twins s.bump s'.bump where
  token n := by rw [token?_bump, token?_bump, h.token]
  trivia n := by rw [triviaBefore_bump, triviaBefore_bump, h.trivia]
  newline n := by rw [newlineBefore_bump, newlineBefore_bump, h.newline]

theorem kindAt (h : Twins s s') (n : Nat) : s.kindAt n = s'.kindAt n := by
  rw [Source.kindAt, Source.kindAt, h.token]

theorem lexeme? (h : Twins s s') (n : Nat) : s.lexeme? n = s'.lexeme? n := by
  rw [Source.lexeme?, Source.lexeme?, h.token, h.trivia, h.newline]

/-- What is ahead looks the same, however many tokens have been passed before. -/
theorem view (h : Twins s s') (d : Nat) : s.view d = s'.view d := by
  have hnone : ∀ {s : Source} {i : Nat}, s.tokens.length ≤ i → s.lexeme? i = none := by
    intro s i hi
    rw [Source.lexeme?, token?_length s hi, Option.map_none]
  have hlexeme : s.lexeme? = s'.lexeme? := funext h.lexeme?
  have hlexemes : (List.range s.tokens.length).filterMap s.lexeme? =
      (List.range s'.tokens.length).filterMap s'.lexeme? := by
    rw [← filterMap_range (fun _ => hnone) (Nat.le_max_left _ s'.tokens.length),
      ← filterMap_range (f := s'.lexeme?) (fun _ => hnone) (Nat.le_max_right s.tokens.length _),
      hlexeme]
  have hend : ∀ {i}, s'.token? i = none → s'.gapBefore i = s'.gapBefore s'.tokens.length := by
    intro i hi
    rw [gapBefore_of_none hi, gapBefore_of_none (token?_length s' (Nat.le_refl _))]
  have hgap : s'.gapBefore s.tokens.length = s'.gapBefore s'.tokens.length :=
    hend (by rw [← h.token, token?_length s (Nat.le_refl _)])
  rw [Source.view, Source.view, hlexemes, h.trivia, h.newline, triviaBefore, newlineBefore, hgap]
  rfl

end Twins

/-! ## The tokens of a text -/

theorem trailing_concat_trivia (ht : t.isTrivia = true) :
    trailing (ts ++ [t]) = trailing ts ++ [t] := by
  simp [trailing, ht]

theorem trailing_concat (ht : t.isTrivia = false) : trailing (ts ++ [t]) = [] := by
  simp [trailing, ht]

/-- The gap before a token is what the tokens up to it end with. -/
theorem getElem?_gapsAfter (front ts : List Token) (hn : n ≤ (significant ts).length) :
    (Token.gapsAfter (trailing front) ts)[n]? =
      some (trailing (front ++ ts.take ((indexIn n ts).getD ts.length))) := by
  induction ts generalizing front n with
  | nil =>
    obtain rfl : n = 0 := Nat.le_zero.mp hn
    rw [List.take_nil, List.append_nil]
    rfl
  | cons t ts ih =>
    have hnext : ∀ i : Option Nat, front ++ (t :: ts).take ((i.map (· + 1)).getD (ts.length + 1)) =
        front ++ [t] ++ ts.take (i.getD ts.length) := by
      intro i
      cases i <;> simp
    rw [Token.gapsAfter, indexIn, List.length_cons]
    cases ht : t.isTrivia with
    | true =>
      rw [if_pos rfl, if_pos rfl, hnext, ← trailing_concat_trivia ht, ih]
      rwa [significant, List.filter_cons_of_neg (by simp [ht])] at hn
    | false =>
      rw [if_neg Bool.false_ne_true, if_neg Bool.false_ne_true]
      cases n with
      | zero => simp
      | succ n =>
        rw [significant, List.filter_cons_of_pos (by simp [ht]), List.length_cons] at hn
        rw [if_neg (Nat.succ_ne_zero n), Nat.add_sub_cancel, hnext, List.getElem?_cons_succ,
          ← ih (front ++ [t]) (Nat.le_of_succ_le_succ hn), trailing_concat ht]

theorem token?_ofTokens (ts : List Token) (n : Nat) :
    (ofTokens ts).token? n = (significant ts)[n]? := by
  rw [token?_eq]
  rfl

theorem getElem?_gaps (hn : n ≤ (significant ts).length) :
    (Token.gaps ts)[n]? = some ((ofTokens ts).gapBefore n) := by
  have hindex : (ofTokens ts).index? n = indexIn n ts := by
    rw [index?]
    show (indexIn n ts).map (0 + ·) = _
    simp
  rw [gapBefore, hindex]
  exact getElem?_gapsAfter [] ts hn

/-- Texts with the same tokens, apart from trivia, and with gaps that agree tell the same. -/
theorem twins_ofTokens {ts ts' : List Token} (htokens : significant ts = significant ts')
    (hgaps : ∀ p ∈ (Token.gaps ts).zip (Token.gaps ts'), Token.GapsAgree p.1 p.2) :
    Twins (ofTokens ts) (ofTokens ts') := by
  have hlength : (significant ts).length = (significant ts').length := by rw [htokens]
  have hagree : ∀ n ≤ (significant ts).length,
      Token.GapsAgree ((ofTokens ts).gapBefore n) ((ofTokens ts').gapBefore n) := by
    intro n hn
    refine hgaps (_, _) (List.mem_of_getElem? (i := n) ?_)
    rw [List.getElem?_zip_eq_some]
    exact ⟨getElem?_gaps hn, getElem?_gaps (hlength ▸ hn)⟩
  -- beyond the last token the gap at the end is asked for again
  have hall : ∀ n, Token.GapsAgree ((ofTokens ts).gapBefore n) ((ofTokens ts').gapBefore n) := by
    intro n
    rcases Nat.le_total n (significant ts).length with hn | hn
    · exact hagree n hn
    · have hend : ∀ (us : List Token) {i}, (significant us).length ≤ i →
          (ofTokens us).gapBefore i = trailing us := fun us _ hi =>
        gapBefore_of_none (by rw [token?_ofTokens, List.getElem?_eq_none_iff.mpr hi])
      have hlast := hagree _ (Nat.le_refl _)
      rwa [hend ts (Nat.le_refl _), hend ts' (hlength ▸ Nat.le_refl _), ← hend ts hn,
        ← hend ts' (hlength ▸ hn)] at hlast
  refine ⟨fun n => ?_, fun n => ?_, fun n => (hall n).2⟩
  · rw [token?_ofTokens, token?_ofTokens, htokens]
  · rw [triviaBefore, triviaBefore, (hall n).1]

/-! ## Lexemes -/

/-- What is told of a gap is what the lexemes keep of it. -/
theorem getElem?_gap_ofTokens (ts : List Token) (hn : n ≤ (significant ts).length) :
    ((Lexeme.ofTokens ts).1.map Lexeme.gap ++ [(Lexeme.ofTokens ts).2])[n]? =
      some ⟨(ofTokens ts).triviaBefore n, (ofTokens ts).newlineBefore n⟩ := by
  rw [Lexeme.map_gap_ofTokens, List.getElem?_map, getElem?_gaps hn, Option.map_some,
    Gap.ofTrivia_eq]
  rfl

theorem length_ofTokens (ts : List Token) :
    (Lexeme.ofTokens ts).1.length = (significant ts).length := by
  rw [← Lexeme.map_token_ofTokens, List.length_map]

/-- What is told of a token is what its lexeme keeps. -/
theorem lexeme?_ofTokens (ts : List Token) (n : Nat) :
    (ofTokens ts).lexeme? n = (Lexeme.ofTokens ts).1[n]? := by
  rw [lexeme?, token?_ofTokens, ← Lexeme.map_token_ofTokens, List.getElem?_map, Option.map_map]
  cases hl : (Lexeme.ofTokens ts).1[n]? with
  | none => rfl
  | some l =>
    have hn : n < (Lexeme.ofTokens ts).1.length := (List.getElem?_eq_some_iff.mp hl).1
    have hgap := getElem?_gap_ofTokens ts (n := n) (by rw [← length_ofTokens]; omega)
    rw [List.getElem?_append_left (by rwa [List.length_map]), List.getElem?_map, hl] at hgap
    rw [Option.map_some, Function.comp_apply, ← Option.some.inj hgap]
    rfl

/-- Behind `k` tokens. -/
def after (s : Source) (k : Nat) : Source := bump^[k] s

theorem after_succ (s : Source) (k : Nat) : s.after (k + 1) = (s.after k).bump :=
  Function.iterate_succ_apply' bump k s

theorem tokens_after (s : Source) (k : Nat) : (s.after k).tokens = s.tokens := by
  induction k with
  | zero => rfl
  | succ k ih => rw [after_succ, bump, ih]

theorem index?_after (s : Source) (k n : Nat) : (s.after k).index? n = s.index? (k + n) := by
  induction k generalizing n with
  | zero => rw [Nat.zero_add]; rfl
  | succ k ih => rw [after_succ, index?_bump, ih, Nat.add_right_comm, Nat.add_assoc]

theorem token?_after (s : Source) (k n : Nat) : (s.after k).token? n = s.token? (k + n) := by
  rw [token?, token?, index?_after, tokens_after]

theorem gapBefore_after (s : Source) (k n : Nat) :
    (s.after k).gapBefore n = s.gapBefore (k + n) := by
  rw [gapBefore, gapBefore, index?_after, tokens_after]

theorem lexeme?_after (s : Source) (k n : Nat) : (s.after k).lexeme? n = s.lexeme? (k + n) := by
  rw [lexeme?, lexeme?, token?_after, triviaBefore, newlineBefore, gapBefore_after]
  rfl

theorem filterMap_getElem? {α : Type} {xs : List α} (h : xs.length ≤ n) :
    (List.range n).filterMap (fun i => xs[i]?) = xs := by
  induction xs generalizing n with
  | nil => simp
  | cons x xs ih =>
    cases n with
    | zero => exact absurd h (Nat.not_succ_le_zero _)
    | succ n =>
      rw [List.range_succ_eq_map, List.filterMap_cons, List.filterMap_map]
      exact congrArg (x :: ·) (ih (Nat.le_of_succ_le_succ h))

/-- A source shows no more than the lexemes that are left. -/
theorem view_after (ts : List Token) (k d : Nat) : ((ofTokens ts).after k).view d =
    ⟨(Lexeme.ofTokens ts).1.drop k, (Lexeme.ofTokens ts).2, d⟩ := by
  have hahead : ((ofTokens ts).after k).lexeme? =
      fun i => ((Lexeme.ofTokens ts).1.drop k)[i]? := by
    funext i
    rw [lexeme?_after, lexeme?_ofTokens, List.getElem?_drop]
  have hlength : (significant ts).length ≤ ts.length := List.length_filter_le _ ts
  have hend : ((ofTokens ts).after k).gapBefore ts.length =
      (ofTokens ts).gapBefore (significant ts).length := by
    rw [gapBefore_after, gapBefore_of_none, gapBefore_of_none]
    · rw [token?_ofTokens, List.getElem?_eq_none_iff]
    · rw [token?_ofTokens, List.getElem?_eq_none_iff]
      omega
  have hgap := getElem?_gap_ofTokens ts (Nat.le_refl _)
  rw [← length_ofTokens, List.getElem?_append_right (by simp), List.length_map, Nat.sub_self,
    length_ofTokens] at hgap
  rw [view, tokens_after]
  show (⟨(List.range ts.length).filterMap _, _, d⟩ : View) = _
  rw [hahead, filterMap_getElem? (by rw [List.length_drop, length_ofTokens]; omega), triviaBefore,
    newlineBefore]
  show (⟨_, ⟨!(((ofTokens ts).after k).gapBefore ts.length).isEmpty,
    (((ofTokens ts).after k).gapBefore ts.length).any _⟩, d⟩ : View) = _
  rw [hend]
  exact congrArg (fun g => (⟨_, g, d⟩ : View)) (Option.some.inj hgap).symm

/-! ## Progress -/

/-- The cursor is moved by every token. -/
theorem position_after_lt (ts : List Token) {k : Nat} (hk : k < (significant ts).length) :
    ((ofTokens ts).after k).position < ((ofTokens ts).after (k + 1)).position := by
  have htoken : ((ofTokens ts).after k).token? 0 ≠ none := by
    rw [token?_after, token?_ofTokens, Nat.add_zero, List.getElem?_eq_getElem hk]
    exact Option.some_ne_none _
  rw [after_succ, position, position, bump]
  refine Nat.lt_add_of_pos_right ?_
  rw [token?_eq] at htoken
  cases hdrop : ((ofTokens ts).after k).tokens.drop ((ofTokens ts).after k).cursor with
  | nil =>
    rw [hdrop] at htoken
    exact absurd rfl htoken
  | cons t more =>
    rw [pass]
    split <;> omega

/-- The cursor tells how many tokens have been passed. -/
theorem position_after_eq {k k' : Nat} (hk : k ≤ k') (hk' : k' ≤ (significant ts).length) :
    ((ofTokens ts).after k').position = ((ofTokens ts).after k).position ↔ k' = k := by
  refine ⟨fun h => ?_, fun h => h ▸ rfl⟩
  obtain ⟨j, rfl⟩ := Nat.exists_eq_add_of_le hk
  cases j with
  | zero => rfl
  | succ j =>
    have hle : ∀ j, k + j ≤ (significant ts).length →
        ((ofTokens ts).after k).position ≤ ((ofTokens ts).after (k + j)).position := by
      intro j
      induction j with
      | zero => exact fun _ => Nat.le_refl _
      | succ j ih =>
        exact fun hj => Nat.le_trans (ih (by omega)) (Nat.le_of_lt (position_after_lt ts (by omega)))
    have hlt := position_after_lt ts (k := k + j) (by omega)
    have hfront := hle j (by omega)
    rw [← Nat.add_assoc] at h
    omega

/-! ## Places -/

theorem getElem?_significantSpans (n : Nat) (ts : List Token) :
    (Token.significantSpans ts)[n]? = (indexIn n ts).map fun i =>
      ⟨Token.totalSize (ts.take i), Token.totalSize (ts.take (i + 1))⟩ := by
  have hlayout : ∀ start, (((Token.layout start ts).filter fun p => !p.2.isTrivia).map Prod.fst)[n]? =
      (indexIn n ts).map fun i =>
        ⟨start + Token.totalSize (ts.take i), start + Token.totalSize (ts.take (i + 1))⟩ := by
    induction ts generalizing n with
    | nil => intro start; rfl
    | cons t ts ih =>
      intro start
      have hnext : ∀ n, (((Token.layout (start + t.size) ts).filter
          fun p => !p.2.isTrivia).map Prod.fst)[n]? =
          ((indexIn n ts).map (· + 1)).map fun i => ⟨start + Token.totalSize ((t :: ts).take i),
            start + Token.totalSize ((t :: ts).take (i + 1))⟩ := by
        intro n
        rw [ih, Option.map_map]
        congr 1
        funext i
        simp only [Function.comp_apply, List.take_succ_cons, Token.totalSize, Nat.add_assoc]
      rw [Token.layout, indexIn]
      cases ht : t.isTrivia with
      | true => rw [if_pos rfl, List.filter_cons_of_neg (by simp [ht]), hnext]
      | false =>
        rw [if_neg Bool.false_ne_true, List.filter_cons_of_pos (by simp [ht]), List.map_cons]
        cases n with
        | zero => simp [Token.totalSize]
        | succ n => exact hnext n
  simpa [Token.significantSpans] using hlayout 0

/-- The next token stands where the spans of the text say. -/
theorem place_after (ts : List Token) (k : Nat) :
    ((ofTokens ts).after k).place = Token.placeOf ts k := by
  have hindex : (ofTokens ts).index? k = indexIn k ts := by
    rw [index?]
    show (indexIn k ts).map (0 + ·) = _
    simp
  rw [place, index?_after, tokens_after, Nat.add_zero, hindex, Token.placeOf, List.getD_eq_getElem?_getD,
    getElem?_significantSpans]
  cases indexIn k ts <;> rfl

end Source

/-! ## Runs side by side -/

namespace Parser

variable {α σ ω ω' : Type}

/-- Two runs end with the same result and with what `R` relates, or neither ends. -/
abbrev EndAlike (R : ω → ω' → Prop) : Option (α × ω) → Option (α × ω') → Prop :=
  Option.Rel fun x y => x.1 = y.1 ∧ R x.2 y.2

/-- The rounds of two loops go on side by side if each of them does. -/
theorem endAlike_writeRounds {R : ω → ω' → Prop} {round : σ → ω → Option (Step σ × ω)}
    {round' : σ → ω' → Option (Step σ × ω')}
    (hround : ∀ a w w', R w w' → EndAlike R (round a w) (round' a w')) (n : Nat) (a : σ) {w : ω}
    {w' : ω'} (h : R w w') : EndAlike R (writeRounds round n a w) (writeRounds round' n a w') := by
  induction n generalizing a w w' with
  | zero => exact .some ⟨rfl, h⟩
  | succ n ih =>
    refine rel_bind (hround a w w' h) fun x y hxy => ?_
    obtain ⟨step, u⟩ := x
    obtain ⟨step', u'⟩ := y
    obtain ⟨rfl, hu⟩ := hxy
    cases step with
    | stop b => exact .some ⟨rfl, hu⟩
    | again b => exact ih b hu

end Parser

/-! ### Two texts -/

namespace Reader

variable {r r' : Reader}

/-- Two readers that have written the same so far and are told the same from now on. -/
structure Twins (r r' : Reader) : Prop where
  source : r.source.Twins r'.source
  out : r.out = r'.out

theorem Twins.consume (h : Twins r r') : Twins r.consume r'.consume := by
  have hend : r.source.atEnd = r'.source.atEnd := by
    rw [Source.atEnd, Source.atEnd, h.source.kindAt]
  rw [Reader.consume, Reader.consume, ← hend]
  split
  · exact h
  · refine ⟨h.source.bump, ?_⟩
    dsimp only
    rw [h.out, h.source.kindAt, h.source.bump.view]

theorem Twins.complain (h : Twins r r') (p : Problem) : Twins (r.complain p) (r'.complain p) :=
  ⟨h.source, congrArg (Writer.complain · p) h.out⟩

theorem Twins.withDirectives (h : Twins r r') (n : Nat) :
    Twins (r.withDirectives n) (r'.withDirectives n) :=
  ⟨h.source, congrArg (Writer.withDirectives · n) h.out⟩

end Reader

namespace Parser

open Reader (Twins)

variable {α : Type} {call call' : Rule → Reader → Option (Bool × Reader)}

/-- Whatever a program looks at, however far ahead, it does the same on both sides. -/
theorem read_twins (hcall : ∀ rule r r', Twins r r' → EndAlike Twins (call rule r) (call' rule r'))
    (p : Parser α) {r r' : Reader} (h : Twins r r') :
    EndAlike Twins (p.read call r) (p.read call' r') := by
  induction p generalizing r r' with
  | done a => exact .some ⟨rfl, h⟩
  | look next ih =>
    rw [read, read, ← h.out]
    exact ih r.out.view h
  | consume next ih => exact ih h.consume
  | complain p next ih => exact ih (h.complain p)
  | group adopt body next ihb ihn =>
    rw [read, read, ← h.out]
    cases r.out.mark adopt with
    | none => exact .none
    | some marked =>
      rw [Option.bind_some, Option.bind_some]
      refine rel_bind (ihb ⟨h.source, rfl⟩) fun x y hxy => ?_
      obtain ⟨hresult, hxy⟩ := hxy
      rw [← hxy.out, ← hresult]
      cases x.2.out.close r.out.events.length x.1.2 with
      | none => exact .none
      | some closed => exact ihn _ ⟨hxy.source, rfl⟩
  | directive body next ihb ihn =>
    rw [read, read, ← h.out]
    refine rel_bind (ihb (h.withDirectives _)) fun x y hxy => ?_
    obtain ⟨hresult, hxy⟩ := hxy
    rw [← hresult]
    exact ihn _ (hxy.withDirectives _)
  | call rule next ih =>
    refine rel_bind (hcall rule r r' h) fun x y hxy => ?_
    obtain ⟨hresult, hxy⟩ := hxy
    rw [← hresult]
    exact ih _ hxy
  | loop round init next ihr ihn =>
    rw [read, read, ← h.out]
    refine rel_bind (endAlike_writeRounds (fun a _ _ hw => ihr a hw) _ init h) fun x y hxy => ?_
    obtain ⟨hresult, hxy⟩ := hxy
    rw [← hresult]
    exact ihn _ hxy

end Parser

theorem Grammar.readRule_twins (depth : Nat) (rule : Rule) (r r' : Reader) (h : r.Twins r') :
    Parser.EndAlike Reader.Twins (readRule depth rule r) (readRule depth rule r') := by
  induction depth generalizing rule r r' with
  | zero => exact .some ⟨rfl, h⟩
  | succ depth ih => exact Parser.read_twins ih (body rule) h

/-- Sources that tell the same are read with the same events. -/
theorem readTokens_twins {ts ts' : List Token}
    (h : (Source.ofTokens ts).Twins (Source.ofTokens ts')) :
    Option.Rel Reader.Twins (readTokens ts) (readTokens ts') := by
  have hinitial : (Reader.ofSource (.ofTokens ts)).Twins (.ofSource (.ofTokens ts')) := by
    refine ⟨h, ?_⟩
    rw [Reader.ofSource, Reader.ofSource, h.view]
  rw [readTokens, readTokens, Option.map_eq_bind, Option.map_eq_bind]
  dsimp only
  rw [← hinitial.out]
  refine rel_bind (Parser.read_twins (Grammar.readRule_twins _) Grammar.file hinitial)
    fun x y hxy => ?_
  exact .some ⟨hxy.2.source, congrArg (Writer.push · .finish) hxy.2.out⟩

/-! ### The lexemes of a text -/

namespace Writer

variable {w w' : Writer} {adopt : Bool} {kind? : Option NodeKind} {pos : Nat}

theorem mark_keeps (h : w.mark adopt = some w') : w'.view = w.view ∧ w'.reports = w.reports := by
  unfold mark at h
  split at h
  · obtain ⟨c, -, hprecede⟩ := Option.bind_eq_some_iff.mp h
    obtain ⟨linked, -, rfl⟩ := Option.map_eq_some_iff.mp hprecede
    exact ⟨rfl, rfl⟩
  · exact Option.some.inj h ▸ ⟨rfl, rfl⟩

theorem close_keeps (h : w.close pos kind? = some w') :
    w'.view = w.view ∧ w'.reports = w.reports := by
  cases kind? with
  | some k => exact Option.some.inj h ▸ ⟨rfl, rfl⟩
  | none =>
    rw [close, abandon] at h
    split at h
    · cases h
    · exact Option.some.inj h ▸ ⟨rfl, rfl⟩

end Writer

namespace Reader

variable {ts : List Token} {r r' : Reader} {w w' : Writer} {k : Nat}

/-- A reader that has passed `k` tokens has written what a writer has that has `k` lexemes less to
    go, and has found the same problems, in their places. -/
structure ShowsAt (ts : List Token) (k : Nat) (r : Reader) (w : Writer) : Prop where
  source : r.source = (Source.ofTokens ts).after k
  le : k ≤ (significant ts).length
  out : r.out = w
  lexemes : w.view.lexemes = (Lexeme.ofTokens ts).1.drop k
  endGap : w.view.endGap = (Lexeme.ofTokens ts).2
  errors : r.errors = Report.locateAll ts w.reports

/-- A reader has come as far as a writer. -/
def Shows (ts : List Token) (r : Reader) (w : Writer) : Prop := ∃ k, ShowsAt ts k r w

theorem ShowsAt.keeps (h : ShowsAt ts k r w) (hw : w'.view = w.view ∧ w'.reports = w.reports) :
    ShowsAt ts k { r with out := w' } w' where
  source := h.source
  le := h.le
  out := rfl
  lexemes := by rw [hw.1, h.lexemes]
  endGap := by rw [hw.1, h.endGap]
  errors := by rw [hw.2]; exact h.errors

theorem Shows.consume (h : Shows ts r w) : Shows ts r.consume w.consume := by
  obtain ⟨k, h⟩ := h
  have htoken : r.source.token? 0 = ((Lexeme.ofTokens ts).1.drop k).head?.map Lexeme.token := by
    rw [h.source, Source.token?_after, Source.token?_ofTokens, ← Lexeme.map_token_ofTokens,
      List.getElem?_map, List.head?_drop, Nat.add_zero]
  rw [Writer.consume, h.lexemes]
  cases hls : (Lexeme.ofTokens ts).1.drop k with
  | nil =>
    have hkind : r.source.kindAt 0 = .eof := by rw [Source.kindAt, htoken, hls]; rfl
    rw [Reader.consume, Source.atEnd, hkind, if_pos (by rfl)]
    exact ⟨k, h⟩
  | cons l ls =>
    have hkind : r.source.kindAt 0 = l.kind := by rw [Source.kindAt, htoken, hls]; rfl
    rw [Reader.consume, Source.atEnd, hkind]
    dsimp only
    by_cases heof : (l.kind == .eof) = true
    · rw [if_pos heof, if_pos heof]
      exact ⟨k, h⟩
    · have hlength := congrArg List.length hls
      rw [List.length_drop, Source.length_ofTokens, List.length_cons] at hlength
      have hdrop : (Lexeme.ofTokens ts).1.drop (k + 1) = ls := by
        rw [← List.drop_drop, hls]
        rfl
      have hview : r.source.bump.view w.view.directives = { w.view with lexemes := ls } := by
        rw [h.source, ← Source.after_succ, Source.view_after, hdrop, ← h.endGap]
      rw [if_neg heof, if_neg heof]
      refine ⟨k + 1, ?_, by omega, ?_, hdrop.symm, h.endGap, h.errors⟩
      · rw [Source.after_succ, ← h.source]
      · dsimp only
        rw [h.out, hview]

theorem Shows.complain (h : Shows ts r w) (p : Problem) : Shows ts (r.complain p) (w.complain p) := by
  obtain ⟨k, h⟩ := h
  refine ⟨k, h.source, h.le, congrArg (Writer.complain · p) h.out, h.lexemes, h.endGap, ?_⟩
  have hremaining : w.view.lexemes.length = (significant ts).length - k := by
    rw [h.lexemes, List.length_drop, Source.length_ofTokens]
  show ⟨p, r.source.place⟩ :: r.errors = Report.locateAll ts (⟨p, w.view.lexemes.length⟩ :: w.reports)
  rw [Report.locateAll_eq, List.map_cons, ← Report.locateAll_eq, ← h.errors, h.source,
    Source.place_after, Report.tokenIndex, hremaining, Nat.sub_sub_self h.le]

theorem Shows.withDirectives (h : Shows ts r w) (n : Nat) :
    Shows ts (r.withDirectives n) (w.withDirectives n) := by
  obtain ⟨k, h⟩ := h
  exact ⟨k, h.source, h.le, congrArg (Writer.withDirectives · n) h.out, h.lexemes, h.endGap, h.errors⟩

/-- Between two states of a reader, the cursor has moved exactly if less is left to look at. -/
theorem Shows.position_eq_iff (h : Shows ts r w) (h' : Shows ts r' w') :
    r'.source.position = r.source.position ↔
      r'.out.view.lexemes.length = r.out.view.lexemes.length := by
  obtain ⟨k, h⟩ := h
  obtain ⟨k', h'⟩ := h'
  have hle := h.le
  have hle' := h'.le
  rw [h.out, h'.out, h.lexemes, h'.lexemes, List.length_drop, List.length_drop,
    Source.length_ofTokens, h.source, h'.source]
  rcases Nat.le_total k k' with hk | hk
  · rw [Source.position_after_eq hk hle']
    omega
  · rw [eq_comm, Source.position_after_eq hk hle]
    omega

end Reader

namespace Parser

open Reader (Shows)

variable {α : Type} {ts : List Token} {call : Rule → Reader → Option (Bool × Reader)}
  {writeCall : Rule → Writer → Option (Bool × Writer)}

/-- Reading the tokens of a text, a program does what it does on the lexemes. -/
theorem read_shows
    (hcall : ∀ rule r w, Shows ts r w → EndAlike (Shows ts) (call rule r) (writeCall rule w))
    (p : Parser α) {r : Reader} {w : Writer} (h : Shows ts r w) :
    EndAlike (Shows ts) (p.read call r) (p.write writeCall w) := by
  have hout : ∀ {r w}, Shows ts r w → r.out = w := fun ⟨_, h⟩ => h.out
  induction p generalizing r w with
  | done a => exact .some ⟨rfl, h⟩
  | look next ih =>
    rw [read, write, hout h]
    exact ih w.view h
  | consume next ih => exact ih h.consume
  | complain p next ih => exact ih (h.complain p)
  | group adopt body next ihb ihn =>
    rw [read, write, hout h]
    cases hmark : w.mark adopt with
    | none => exact .none
    | some marked =>
      rw [Option.bind_some, Option.bind_some]
      obtain ⟨k, hk⟩ := h
      refine rel_bind (ihb ⟨k, hk.keeps (Writer.mark_keeps hmark)⟩) fun x y hxy => ?_
      obtain ⟨hresult, hxy⟩ := hxy
      rw [hout hxy, ← hresult]
      cases hclose : y.2.close w.events.length x.1.2 with
      | none => exact .none
      | some closed =>
        obtain ⟨k', hk'⟩ := hxy
        exact ihn _ ⟨k', hk'.keeps (Writer.close_keeps hclose)⟩
  | directive body next ihb ihn =>
    rw [read, write, hout h]
    refine rel_bind (ihb (h.withDirectives _)) fun x y hxy => ?_
    obtain ⟨hresult, hxy⟩ := hxy
    rw [← hresult]
    exact ihn _ (hxy.withDirectives _)
  | call rule next ih =>
    refine rel_bind (hcall rule r w h) fun x y hxy => ?_
    obtain ⟨hresult, hxy⟩ := hxy
    rw [← hresult]
    exact ih _ hxy
  | loop round init next ihr ihn =>
    rw [read, write, hout h]
    refine rel_bind (endAlike_writeRounds (fun a _ _ hw => ihr a hw) _ init h) fun x y hxy => ?_
    obtain ⟨hresult, hxy⟩ := hxy
    rw [← hresult]
    exact ihn _ hxy

end Parser

theorem Grammar.readRule_shows {ts : List Token} (depth : Nat) (rule : Rule) (r : Reader)
    (w : Writer) (h : r.Shows ts w) :
    Parser.EndAlike (Reader.Shows ts) (readRule depth rule r) (writeRule depth rule w) := by
  induction depth generalizing rule r w with
  | zero => exact .some ⟨rfl, h⟩
  | succ depth ih => exact Parser.read_shows ih (body rule) h

/-- What a program does on the tokens of a text is progress, as the program itself can see it, exactly
    if the cursor has moved. -/
theorem Grammar.position_eq_iff_of_read {α : Type} {ts : List Token} {depth : Nat} {p : Parser α}
    {r : Reader} {w : Writer} {x : α × Reader} (h : r.Shows ts w)
    (hread : p.read (readRule depth) r = some x) :
    x.2.source.position = r.source.position ↔
      x.2.out.view.lexemes.length = r.out.view.lexemes.length := by
  have hsides := Parser.read_shows (readRule_shows depth) p h
  rw [hread] at hsides
  cases hwrite : p.write (writeRule depth) w with
  | none =>
    rw [hwrite] at hsides
    cases hsides
  | some y =>
    rw [hwrite] at hsides
    cases hsides with
    | some hxy => exact h.position_eq_iff hxy.2

/-- Parsing from the tokens of a text writes the events of the text and finds its problems, in their
    places. -/
theorem readTokens_shows (ts : List Token) :
    Option.Rel (Reader.Shows ts) (readTokens ts) (writeTokens ts) := by
  have hview : (Source.ofTokens ts).view 0 = ⟨(Lexeme.ofTokens ts).1, (Lexeme.ofTokens ts).2, 0⟩ :=
    Source.view_after ts 0 0
  have hout : (Reader.ofSource (.ofTokens ts)).out =
      Writer.initial (Lexeme.ofTokens ts).1 (Lexeme.ofTokens ts).2 := by
    show Writer.initial ((Source.ofTokens ts).view 0).lexemes _ = _
    rw [hview]
  have hinitial : (Reader.ofSource (.ofTokens ts)).Shows ts
      (Writer.initial (Lexeme.ofTokens ts).1 (Lexeme.ofTokens ts).2) :=
    ⟨0, rfl, Nat.zero_le _, hout, rfl, rfl, rfl⟩
  rw [readTokens, writeTokens]
  dsimp only
  rw [hout, Option.map_eq_bind, Option.map_eq_bind]
  refine rel_bind (Parser.read_shows (Grammar.readRule_shows _) Grammar.file hinitial)
    fun x y hxy => ?_
  obtain ⟨k, hk⟩ := hxy.2
  refine .some ⟨k, ?_⟩
  show Reader.ShowsAt ts k { x.2 with out := x.2.out.push .finish } (y.2.push .finish)
  rw [hk.out]
  exact hk.keeps ⟨rfl, rfl⟩

/-! ## Every text -/

/-- What is to be expected of parsing from the tokens of a text: the events are those of the text,
    reading them gives its tree, and the problems are those of the text, in their places. -/
structure Reader.Parses (source : String) (r : Reader) : Prop where
  run : readTokens (lex source) = some r
  events : writeTokens (lex source) = some r.out
  tree : (Sink.read r.out.events (lex source)).bind Tree.ofCalls? = some (parse source).tree
  errors : r.errors.reverse = (parse source).diagnostics

theorem exists_parses (source : String) : ∃ r : Reader, r.Parses source := by
  obtain ⟨w, hwrite, hformed⟩ := writeTokens_wellFormed (lex source)
  have hshows := readTokens_shows (lex source)
  rw [hwrite] at hshows
  cases hread : readTokens (lex source) with
  | none =>
    rw [hread] at hshows
    cases hshows
  | some r =>
    rw [hread] at hshows
    cases hshows with
    | some hr =>
      obtain ⟨k, hk⟩ := hr
      refine ⟨r, hread, hk.out ▸ hwrite, hk.out ▸ hformed.tree, ?_⟩
      rw [hk.errors, hformed.reports, parse, parseTokens, Report.locateAll, Report.locateAll,
        List.map_reverse]

/-- If two texts have the same tokens apart from trivia, and if every gap between these tokens, at
    the start and at the end included, is empty in one text if and only if it is in the other and
    holds a line feed in one if and only if it does in the other, then parsers that read from the
    tokens write the same events for both. So the trees of the texts are equal without their trivia,
    and the same problems are found in the same order at tokens with the same numbers. -/
theorem parse_congr_of_gapsAgree {source source' : String}
    (htokens : significant (lex source) = significant (lex source'))
    (hgaps : ∀ p ∈ (Token.gaps (lex source)).zip (Token.gaps (lex source')),
      Token.GapsAgree p.1 p.2) :
    ∃ r r' : Reader, r.Parses source ∧ r'.Parses source' ∧ r.out.events = r'.out.events ∧
      (parse source).tree.withoutTrivia = (parse source').tree.withoutTrivia ∧
      ∃ found : List (Problem × Nat),
        (∀ f ∈ found, f.2 ≤ (significant (lex source)).length) ∧
        (parse source).diagnostics =
          found.map (fun f => ⟨f.1, Token.placeOf (lex source) f.2⟩) ∧
        (parse source').diagnostics =
          found.map (fun f => ⟨f.1, Token.placeOf (lex source') f.2⟩) := by
  obtain ⟨r, hr⟩ := exists_parses source
  obtain ⟨r', hr'⟩ := exists_parses source'
  have hsame := Source.twins_ofTokens htokens hgaps
  have htwins := readTokens_twins hsame
  rw [hr.run, hr'.run] at htwins
  have hout : r.out = r'.out := by
    cases htwins with
    | some h => exact h.out
  -- nothing else can be seen by a parser that builds trees
  have hfinal : finalState (lex source) = finalState (lex source') := by
    have hview := hsame.view 0
    have hlexemes : ∀ ts, (Source.ofTokens ts).view 0 =
        ⟨(Lexeme.ofTokens ts).1, (Lexeme.ofTokens ts).2, 0⟩ := fun ts => Source.view_after ts 0 0
    rw [hlexemes, hlexemes] at hview
    obtain ⟨hls, hend, -⟩ := View.mk.inj hview
    rw [finalState, finalState]
    dsimp only
    rw [hls, hend]
  refine ⟨r, r', hr, hr', congrArg Writer.events hout, ?_, ?_⟩
  · rw [withoutTrivia_parse, withoutTrivia_parse, hfinal]
  · refine ⟨(finalState (lex source)).reports.reverse.map fun r =>
      (r.problem, r.tokenIndex (lex source)), ?_, ?_, ?_⟩
    · intro f hf
      obtain ⟨r, -, rfl⟩ := List.mem_map.mp hf
      exact Nat.sub_le _ _
    · rw [diagnostics_parse, List.map_map]
      rfl
    · have hindex : ∀ r : Report, r.tokenIndex (lex source) = r.tokenIndex (lex source') := by
        intro r
        rw [Report.tokenIndex, Report.tokenIndex, htokens]
      rw [diagnostics_parse, hfinal, List.map_map]
      simp only [hindex]
      rfl

/-- Comments in the gaps of a faulty declaration change neither its events nor its problems. -/
theorem parse_congr_of_comments :
    ∃ r r' : Reader, r.Parses "let = 1\n" ∧ r'.Parses "let /* name */ = 1 // one\n" ∧
      r.out.events = r'.out.events ∧
      (parse "let = 1\n").tree.withoutTrivia =
        (parse "let /* name */ = 1 // one\n").tree.withoutTrivia ∧
      ∃ found : List (Problem × Nat),
        (∀ f ∈ found, f.2 ≤ (significant (lex "let = 1\n")).length) ∧
        (parse "let = 1\n").diagnostics =
          found.map (fun f => ⟨f.1, Token.placeOf (lex "let = 1\n") f.2⟩) ∧
        (parse "let /* name */ = 1 // one\n").diagnostics =
          found.map (fun f => ⟨f.1, Token.placeOf (lex "let /* name */ = 1 // one\n") f.2⟩) :=
  parse_congr_of_gapsAgree (by decide +kernel) (by decide +kernel)

end SwiftOutline
