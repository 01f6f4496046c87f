/-
  SwiftOutline.Proofs.Parser.Recovers

  Programs that recover trees from their tokens. In front of the tokens of some
  trees they consume just these, and what they build are the trees without their
  trivia. Such facts are put together as the programs are, and along a whole file
  they say that parsing its text gives back the trees.
-/
import SwiftOutline.Proofs.Tree.TriviaPlacement
import SwiftOutline.Proofs.TypeExpr.Annotation
import SwiftOutline.Proofs.TypeShape.Derived

namespace SwiftOutline

open SwiftOutline.Tree

/-! ## Lists of trees -/

namespace Tree

/-- Trees with commas between them. -/
def commaTrees : List Tree → List Tree
  | [] => []
  | [t] => [t]
  | t :: u :: ts => t :: .leaf ⟨.comma, ","⟩ :: TypeShape.blankTree :: commaTrees (u :: ts)

theorem snug_commaTrees {ts : List Tree} (h : ∀ t ∈ ts, t.Snug) : SnugForest (commaTrees ts) := by
  induction ts with
  | nil => exact .nil
  | cons t ts ih =>
    obtain ⟨ht, hts⟩ := List.forall_mem_cons.mp h
    cases ts with
    | nil => exact .cons ht .nil
    | cons u us =>
      refine .cons ht (.cons (.leaf rfl) (FormsForest.snug_blank (ih hts) ?_))
      cases us <;> simp [commaTrees]

end Tree

namespace Token

/-! ## Looking at tokens -/

/-- Kind of the `n`th of the tokens that are no trivia; `eof` when there is none. -/
def kindAt (ts : List Token) (n : Nat) : TokenKind :=
  ((significant ts)[n]?.map kind).getD .eof

variable {k : TokenKind} {text : String} {ts : List Token} {n : Nat}

@[simp] theorem kindAt_nil : kindAt [] n = .eof := rfl

theorem kindAt_zero (hk : k.isTrivia = false) : kindAt (⟨k, text⟩ :: ts) 0 = k := by
  rw [kindAt, significant, List.filter_cons_of_pos (by simp [isTrivia, hk])]
  rfl

theorem kindAt_succ (hk : k.isTrivia = false) : kindAt (⟨k, text⟩ :: ts) (n + 1) = kindAt ts n := by
  rw [kindAt, significant, List.filter_cons_of_pos (by simp [isTrivia, hk])]
  rfl

theorem kindAt_trivia (hk : k.isTrivia = true) : kindAt (⟨k, text⟩ :: ts) n = kindAt ts n := by
  rw [kindAt, significant, List.filter_cons_of_neg (by simp [isTrivia, hk])]
  rfl

end Token

/-! ## Lexemes of tokens -/

namespace Lexeme

/-- The lexemes of tokens, behind a gap. -/
def ahead (gap : Gap) (ts : List Token) : List Lexeme := (ofTokensAfter gap ts).1

/-- The gap behind the tokens of trees. -/
def behind (gap : Gap) (ts : List Tree) : Gap := (ofTokensAfter gap (forestLeaves ts)).2

variable {gap : Gap} {ts us : List Tree} {k : TokenKind} {text : String} {toks : List Token}

@[simp] theorem behind_nil : behind gap [] = gap := rfl

theorem ofTokensAfter_eq (gap : Gap) (toks more : List Token) :
    ofTokensAfter gap (toks ++ more) =
      ((ofTokensAfter gap toks).1 ++ (ofTokensAfter (ofTokensAfter gap toks).2 more).1,
        (ofTokensAfter (ofTokensAfter gap toks).2 more).2) :=
  ofTokensAfter_append (Prod.eta _).symm more

theorem behind_append : behind gap (ts ++ us) = behind (behind gap ts) us := by
  rw [behind, forestLeaves_append, ofTokensAfter_eq]
  rfl

theorem headKind_ahead (gap : Gap) (toks : List Token) :
    Lookahead.headKind (ahead gap toks) = Token.kindAt toks 0 := by
  have htokens := map_token_ofTokensAfter gap toks
  rw [Token.kindAt, ← htokens, List.getElem?_map, ← ahead]
  cases ahead gap toks <;> rfl

theorem length_ahead (gap : Gap) (toks : List Token) :
    (ahead gap toks).length = (Token.significant toks).length := by
  have htokens := congrArg List.length (map_token_ofTokensAfter gap toks)
  rwa [List.length_map] at htokens

/-- Trees that are no trivia alone have lexemes. -/
theorem length_ahead_lt (h : SnugForest ts) (hne : ts ≠ []) (more : List Token) :
    (ahead .none more).length < (ahead gap (forestLeaves ts ++ more)).length := by
  obtain ⟨us, u, hleaves, hu⟩ := SnugForest.exists_last ts h hne
  rw [length_ahead, length_ahead, hleaves, Token.significant, Token.significant,
    List.filter_append, List.filter_append, List.filter_cons_of_pos (by simp [hu])]
  simp only [List.length_append, List.length_cons]
  omega

/-- Behind a tree that ends with no trivia there is no gap. -/
theorem behind_of_snug (h : SnugForest ts) (hne : ts ≠ []) : behind gap ts = .none := by
  obtain ⟨us, u, hleaves, hu⟩ := SnugForest.exists_last ts h hne
  rw [behind, hleaves, ofTokensAfter_eq, ofTokensAfter, if_neg (by simp [hu])]
  rfl

theorem ahead_cons (hk : k.isTrivia = false) :
    ahead gap (⟨k, text⟩ :: toks) = ⟨k, text, gap⟩ :: ahead .none toks := by
  rw [ahead, ofTokensAfter_cons hk]
  rfl

theorem ahead_trivia {b : Token} (hb : b.isTrivia = true) :
    ahead gap (b :: toks) = ahead (gap.extend b) toks := by
  rw [ahead, ofTokensAfter, if_pos hb]
  rfl

theorem behind_trivia {b : Token} (hb : b.isTrivia = true) :
    behind gap (.leaf b :: ts) = behind (gap.extend b) ts := by
  rw [behind, forestLeaves, leaves, List.singleton_append, ofTokensAfter, if_pos hb]
  rfl

/-- Of tokens that neither begin nor end with trivia, only the first lexeme tells which gap stands
    before them, and none is left behind them. -/
theorem exists_ofTokensAfter {ts : List Token} (hfirst : ts.dropWhile Token.isTrivia = ts)
    (hlast : ∃ t ∈ ts.getLast?, t.isTrivia = false) :
    ∃ (l : Lexeme) (inner : List Lexeme), ∀ gap : Gap,
      ofTokensAfter gap ts = ({ l with gap := gap } :: inner, .none) := by
  obtain ⟨t, ht, htrivia⟩ := hlast
  obtain ⟨front, hfront⟩ := List.getLast?_eq_some_iff.mp ht
  have hend : ∀ gap : Gap, (ofTokensAfter gap ts).2 = .none := by
    intro gap
    rw [hfront, ofTokensAfter_eq, ofTokensAfter, if_neg (by simp [htrivia])]
    rfl
  cases ts with
  | nil => cases ht
  | cons u us =>
    have hu : u.isTrivia = false := by simpa using Tree.head_isTrivia_of_dropWhile hfirst
    refine ⟨⟨u.kind, u.text, .none⟩, (ofTokensAfter .none us).1, fun gap => ?_⟩
    exact Prod.ext (by rw [ofTokensAfter_cons hu]) (hend gap)

end Lexeme

open Lexeme (ahead behind)

/-- A view of tokens shows their kinds, whatever gap stands before them. -/
theorem View.kindAt_of_ahead {v : View} {gap : Gap} {toks : List Token}
    (h : v.lexemes = ahead gap toks) (n : Nat) : v.kindAt n = Token.kindAt toks n := by
  have htokens : v.lexemes.map Lexeme.token = Token.significant toks := by
    rw [h]
    exact Lexeme.map_token_ofTokensAfter gap toks
  rw [View.kindAt, Token.kindAt, ← htokens, List.getElem?_map]
  cases v.lexemes[n]? <;> rfl

namespace Parser

open Grammar (runRule body separatedRound)

variable {α β : Type} {p : Parser α} {q : Parser Bool} {a : α} {b : β} {f : α → Parser β}
  {ts us : List Tree} {t : Tree} {rest : List Token} {k : TokenKind} {text : String}

/-- In front of the tokens of the trees and then `rest`, whatever gap stands before them, the
    program comes with the result `a` to `rest`, and builds the trees without their trivia. -/
def Recovers (p : Parser α) (a : α) (ts : List Tree) (rest : List Token) : Prop :=
  ∀ gap, Reads p a ⟨ahead gap (forestLeaves ts ++ rest), []⟩
    ⟨ahead (behind gap ts) rest, forestWithoutTrivia ts⟩

namespace Recovers

/-! ### Sequencing -/

theorem pure : Recovers (Pure.pure a : Parser α) a [] rest := fun _ => Reads.pure

theorem bind (h : Recovers p a ts (forestLeaves us ++ rest)) (h' : Recovers (f a) b us rest) :
    Recovers (p >>= f) b (ts ++ us) rest := by
  intro gap
  rw [forestLeaves_append, List.append_assoc, forestWithoutTrivia_append, Lexeme.behind_append]
  exact (h gap).bind ((h' _).onto _)

/-- A program that recovers one tree, and what comes behind it. -/
theorem cons (h : Recovers p a [t] (forestLeaves us ++ rest)) (h' : Recovers (f a) b us rest) :
    Recovers (p >>= f) b (t :: us) rest :=
  h.bind h'

/-- A program that consumes nothing in front of the trees. -/
theorem skip (h : Recovers p a [] (forestLeaves ts ++ rest)) (h' : Recovers (f a) b ts rest) :
    Recovers (p >>= f) b ts rest :=
  h.bind h'

/-- A program that consumes nothing behind the trees. -/
theorem last (h : Recovers p a ts rest) (h' : Recovers (f a) b [] rest) :
    Recovers (p >>= f) b ts rest := by
  have hbind : Recovers (p >>= f) b (ts ++ []) rest := Recovers.bind h h'
  rwa [List.append_nil] at hbind

/-- Trivia in front of the trees. -/
theorem trivia {u : Token} (hu : u.isTrivia = true) (h : Recovers p a ts rest) :
    Recovers p a (.leaf u :: ts) rest := by
  intro gap
  rw [forestLeaves, leaves, List.singleton_append, List.cons_append, Lexeme.ahead_trivia hu,
    Lexeme.behind_trivia hu, forestWithoutTrivia, isTriviaLeaf_leaf, if_pos hu]
  exact h (gap.extend u)

theorem blank (h : Recovers p a ts rest) : Recovers p a (TypeShape.blankTree :: ts) rest :=
  h.trivia rfl

/-! ### Looking -/

theorem view {f : View → Parser α}
    (h : ∀ gap (v : View), v.lexemes = ahead gap (forestLeaves ts ++ rest) →
      Recovers (f v) a ts rest) : Recovers (view >>= f) a ts rest :=
  fun gap => Reads.view fun v hv => h gap v hv gap

theorem kind {f : TokenKind → Parser α}
    (h : Recovers (f (Token.kindAt (forestLeaves ts ++ rest) 0)) a ts rest) :
    Recovers (Parser.kind >>= f) a ts rest := by
  refine fun gap => Reads.view fun v hv => ?_
  show Reads (f v.kind) a _ _
  rw [View.kind, View.kindAt_of_ahead hv]
  exact h gap

theorem sees {f : Bool → Parser α}
    (h : Recovers (f (Token.kindAt (forestLeaves ts ++ rest) 0 == k)) a ts rest) :
    Recovers (Parser.sees k >>= f) a ts rest := by
  refine fun gap => Reads.view fun v hv => ?_
  show Reads (f (v.kind == k)) a _ _
  rw [View.kind, View.kindAt_of_ahead hv]
  exact h gap

/-- A part that a token of its own kind begins. -/
theorem present {p : Parser Unit} (hk : Token.kindAt (forestLeaves ts ++ rest) 0 = k)
    (h : Recovers p () ts rest) :
    Recovers (Parser.sees k >>= fun found => if found then p else Pure.pure ()) () ts rest := by
  refine sees ?_
  rw [if_pos (by simp [hk])]
  exact h

/-- A part that is missing. -/
theorem absent {p : Parser Unit} (hk : Token.kindAt rest 0 ≠ k) :
    Recovers (Parser.sees k >>= fun found => if found then p else Pure.pure ()) () [] rest := by
  refine sees ?_
  rw [forestLeaves, List.nil_append, if_neg (by simpa using hk)]
  exact pure

/-! ### Consuming -/

theorem bump (hk : k.isTrivia = false) (heof : k ≠ .eof) :
    Recovers bump () [.leaf ⟨k, text⟩] rest := by
  intro gap
  have hbehind : behind gap [.leaf ⟨k, text⟩] = .none :=
    Lexeme.behind_of_snug (.cons (.leaf hk) .nil) (by simp)
  rw [forestLeaves, leaves, forestLeaves, List.append_nil, List.singleton_append,
    Lexeme.ahead_cons hk, hbehind]
  simpa [forestWithoutTrivia, withoutTrivia, Token.isTrivia, hk, Lexeme.token] using
    (Reads.bump heof : Reads Parser.bump () ⟨⟨k, text, gap⟩ :: ahead .none rest, []⟩ _)

theorem eat (hk : k.isTrivia = false) (heof : k ≠ .eof) :
    Recovers (eat k) true [.leaf ⟨k, text⟩] rest := by
  refine sees ?_
  rw [forestLeaves, leaves, List.singleton_append, List.cons_append, Token.kindAt_zero hk,
    if_pos (by simp)]
  exact (bump hk heof).last pure

theorem eat_not (hk : Token.kindAt rest 0 ≠ k) : Recovers (Parser.eat k) false [] rest := by
  refine sees ?_
  rw [forestLeaves, List.nil_append, if_neg (by simpa using hk)]
  exact pure

theorem expect {problem : Problem} (hk : k.isTrivia = false) (heof : k ≠ .eof) :
    Recovers (expect k problem) true [.leaf ⟨k, text⟩] rest :=
  (eat hk heof).last pure

theorem require {problem : Problem} (hk : k.isTrivia = false) (heof : k ≠ .eof) :
    Recovers (require k problem) () [.leaf ⟨k, text⟩] rest :=
  (expect hk heof).last pure

/-! ### Rules and nodes -/

theorem follow {r : Rule} {b : Bool} (h : Recovers (body r) b ts rest) :
    Recovers (follow r) b ts rest :=
  fun gap => (h gap).follow

theorem follow' {r : Rule} {b : Bool} (h : Recovers (body r) b ts rest) :
    Recovers (follow' r) () ts rest :=
  fun gap => (h gap).follow'

/-- A rule whose outcome does not matter. -/
theorem discard {r : Rule} {b : Bool} (h : Recovers (Parser.follow r) b ts rest) :
    Recovers (Parser.follow' r) () ts rest := by
  intro gap s
  obtain ⟨n, hn⟩ := h gap s
  refine ⟨n, fun depth hd => ?_⟩
  have hrun := hn depth hd
  rw [run_follow] at hrun
  rw [run_follow', hrun]

theorem node {k : NodeKind} (h : Recovers p a ts rest) :
    Recovers (node k p) a [.node k ts] rest := by
  intro gap
  have hleaves : forestLeaves [.node k ts] = forestLeaves ts := by
    rw [forestLeaves, leaves, forestLeaves, List.append_nil]
  rw [behind, hleaves]
  exact (h gap).node []

/-- A node around the tree built last and what the program recovers. -/
theorem wrap {k : NodeKind} (h : Recovers p a us rest) (ht : t.isTriviaLeaf = false) (gap : Gap) :
    Reads (wrap k p) a ⟨ahead gap (forestLeaves us ++ rest), [t.withoutTrivia]⟩
      ⟨ahead (behind gap us) rest, [(Tree.node k (t :: us)).withoutTrivia]⟩ := by
  have hread := ((h gap).onto [t.withoutTrivia]).wrap (k := k) []
  simpa [withoutTrivia, forestWithoutTrivia, ht] using hread

theorem node? {k : NodeKind} {p : Parser (Option NodeKind)} (h : Recovers p (some k) ts rest) :
    Recovers (node? p) true [.node k ts] rest := by
  intro gap
  have hleaves : forestLeaves [.node k ts] = forestLeaves ts := by
    rw [forestLeaves, leaves, forestLeaves, List.append_nil]
  rw [behind, hleaves]
  exact (h gap).node? []

/-! ### Types -/

/-- A type, in front of what does not continue it. -/
theorem type (h : FormsTree .type t)
    (hrest : Token.kindAt rest 0 ∉ [TokenKind.question, .exclamation, .dot, .lt, .amp, .arrow,
      .ident, .kwThrows, .kwRethrows]) : Recovers (Parser.follow .type) true [t] rest := by
  refine follow fun gap => ?_
  obtain ⟨ls, hls, hd⟩ := h.derives gap
  have hleaves : forestLeaves [t] = t.leaves := by
    rw [forestLeaves, forestLeaves, List.append_nil]
  have hstops : Grammar.Stops (ahead .none rest) :=
    .of_headKind (Lexeme.headKind_ahead _ _) hrest
  have hahead : ahead gap (t.leaves ++ rest) = ls ++ ahead .none rest := by
    rw [ahead, Lexeme.ofTokensAfter_append hls]
    rfl
  rw [behind, hleaves, hls, hahead, forestWithoutTrivia, h.snug.isTriviaLeaf_eq,
    if_neg Bool.false_ne_true]
  exact hd.isRead _ hstops

theorem type' (h : FormsTree .type t)
    (hrest : Token.kindAt rest 0 ∉ [TokenKind.question, .exclamation, .dot, .lt, .amp, .arrow,
      .ident, .kwThrows, .kwRethrows]) : Recovers (Parser.follow' .type) () [t] rest :=
  (type h hrest).discard

end Recovers

/-! ### Repetitions -/

/-- The rounds of a repetition up to its end recover the trees. -/
def RecoversAll (q : Parser Bool) (ts : List Tree) (rest : List Token) : Prop :=
  ∀ gap, ReadsAll q ⟨ahead gap (forestLeaves ts ++ rest), []⟩
    ⟨ahead (behind gap ts) rest, forestWithoutTrivia ts⟩

namespace RecoversAll

theorem stop (h : Recovers q false ts rest) : RecoversAll q ts rest := fun gap => .stop (h gap)

/-- One more round in front. -/
theorem again (h : Recovers q true ts (forestLeaves us ++ rest)) (hts : SnugForest ts)
    (hne : ts ≠ []) (h' : RecoversAll q us rest) : RecoversAll q (ts ++ us) rest := by
  intro gap
  have hbehind : ∀ gap, behind gap ts = .none := fun gap => Lexeme.behind_of_snug hts hne
  have hlt : ∀ more, (ahead .none more).length < (ahead gap (forestLeaves ts ++ more)).length :=
    fun more => Lexeme.length_ahead_lt hts hne more
  have hmore := h gap
  rw [hbehind] at hmore
  rw [Lexeme.behind_append, hbehind, forestLeaves_append, List.append_assoc,
    forestWithoutTrivia_append]
  exact .again ⟨hmore, hlt _⟩ ((h' .none).onto _)

theorem blank (h : RecoversAll q ts rest) : RecoversAll q (TypeShape.blankTree :: ts) rest := by
  intro gap
  have hblank : Token.isTrivia ⟨.whitespace, " "⟩ = true := rfl
  rw [TypeShape.blankTree, forestLeaves, leaves, List.singleton_append, List.cons_append,
    Lexeme.ahead_trivia hblank, Lexeme.behind_trivia hblank, forestWithoutTrivia,
    isTriviaLeaf_leaf, if_pos hblank]
  exact h _

theorem repeating (h : RecoversAll q ts rest) : Recovers (repeating q) () ts rest :=
  fun gap => (h gap).repeating

end RecoversAll

/-! ### Lists -/

/-- A tree that an element of a list recovers, in front of a comma or of the end of the list. -/
structure IsElement (closer : TokenKind) (element : Parser Bool) (t : Tree) : Prop where
  snug : t.Snug
  begins : ∀ more, Token.kindAt (t.leaves ++ more) 0 ∉ [closer, .eof]
  recovers : ∀ more, Token.kindAt more 0 ∈ [.comma, closer] → Recovers element true [t] more

/-- A list of elements up to what closes it. -/
theorem Recovers.separatedUntil {closer : TokenKind} {element : Parser Bool}
    (h : ∀ t ∈ ts, IsElement closer element t) (hcloser : closer ≠ .comma)
    (hrest : Token.kindAt rest 0 = closer) :
    Recovers (separatedUntil closer element) () (commaTrees ts) rest := by
  refine RecoversAll.repeating ?_
  -- behind an element there is a comma, and one more round, or the end of the list
  have hround : ∀ {t : Tree} {us : List Tree} {more : List Token} {b : Bool},
      IsElement closer element t → Token.kindAt (forestLeaves us ++ more) 0 ∈ [.comma, closer] →
      Recovers (Parser.eat .comma) b us more →
      Recovers (separatedRound closer element) b (t :: us) more := by
    intro t us more b ht hmore heat
    refine Recovers.view fun gap v hv => ?_
    have hfirst := ht.begins (forestLeaves us ++ more)
    rw [← List.append_assoc, ← forestLeaves, ← View.kindAt_of_ahead hv 0] at hfirst
    rw [View.atEnd, View.kind, if_neg (by simpa using hfirst)]
    refine Recovers.cons (ht.recovers _ hmore) ?_
    rw [if_pos rfl]
    exact heat
  induction ts with
  | nil =>
    refine .stop (Recovers.view fun gap v hv => ?_)
    have hclosed : v.kind = closer := by
      rw [View.kind, View.kindAt_of_ahead hv]
      exact hrest
    rw [if_pos (by simp [hclosed])]
    exact .pure
  | cons t ts ih =>
    obtain ⟨ht, hts⟩ := List.forall_mem_cons.mp h
    cases ts with
    | nil =>
      have hclosed : Token.kindAt (forestLeaves [] ++ rest) 0 ∈ [.comma, closer] := by
        simp [forestLeaves, hrest]
      exact .stop (hround ht hclosed (.eat_not (by rw [hrest]; exact hcloser)))
    | cons u us =>
      have hcomma : Recovers (separatedRound closer element) true [t, .leaf ⟨.comma, ","⟩]
          (forestLeaves (TypeShape.blankTree :: commaTrees (u :: us)) ++ rest) := by
        refine hround ht ?_ (.eat rfl (by decide))
        simp [forestLeaves, leaves, Token.kindAt_zero (k := .comma) rfl]
      exact RecoversAll.again hcomma (.cons ht.snug (.cons (.leaf rfl) .nil)) (by simp) (ih hts).blank

end Parser

namespace Grammar

open SwiftOutline.Parser

variable {scope : Scope} {place : Place} {k : TokenKind} {text : String} {t : Tree}
  {rest : List Token} {source : String}

/-! ## Expressions of a single token -/

/-- A token that makes an expression. -/
def IsOperand (k : TokenKind) (text : String) : Prop :=
  k = .ident ∧ text ≠ "await" ∨ k.isLiteral = true

/-- What ends an expression of one token. -/
def EndsRun (place : Place) (k : TokenKind) : Prop :=
  k ∈ [TokenKind.comma, .rParen] ∨ place = .condition ∧ k = .lBrace

theorem IsOperand.kind_mem (h : IsOperand k text) :
    k ∈ [TokenKind.ident, .intLiteral, .floatLiteral, .stringLiteral, .kwTrue, .kwFalse,
      .kwNil] := by
  obtain ⟨rfl, -⟩ | hliteral := h
  · decide
  · revert hliteral
    cases k <;> decide

theorem reads_exprStep_operand (h : IsOperand k text) (gap : Gap) (ls : List Lexeme) :
    Reads (exprStep place {}) (.again ⟨0, 0, false, some k⟩) ⟨⟨k, text, gap⟩ :: ls, []⟩
      ⟨ls, [.leaf ⟨k, text⟩]⟩ := by
  have hkinds := h.kind_mem
  have hplain : ∀ v : View, v.lexemes = ⟨k, text, gap⟩ :: ls →
      Reads (plainLexeme v {}) (.again ⟨0, 0, false, some k⟩) ⟨⟨k, text, gap⟩ :: ls, []⟩
        ⟨ls, [.leaf ⟨k, text⟩]⟩ := by
    intro v hv
    have hkind : v.kind = k := by rw [View.kind_eq, hv]; rfl
    have hwants : wantsOperandAfter v = false := by
      rw [wantsOperandAfter, hkind]
      obtain ⟨rfl, htext⟩ | hliteral := h
      · simp [View.spells_eq, Lookahead.spells, hv, htext]
      · revert hliteral
        cases k <;> simp [TokenKind.isLiteral]
    have heof : k ≠ .eof := by
      rintro rfl
      exact absurd hkinds (by decide)
    unfold plainLexeme
    rw [hkind, hwants]
    exact (Reads.bump heof).bind .pure
  refine .view fun v hv => ?_
  have hkind : v.kind = k := by rw [View.kind_eq, hv]; rfl
  have hread := hplain v hv
  rw [hkind]
  simp only [List.mem_cons, List.not_mem_nil, or_false] at hkinds
  rcases hkinds with rfl | rfl | rfl | rfl | rfl | rfl | rfl <;> exact hread

theorem reads_exprStep_stop {ls : List Lexeme} {ts : List Tree} (k : TokenKind)
    (h : EndsRun place (Lookahead.headKind ls)) :
    Reads (exprStep place ⟨0, 0, false, some k⟩) (.stop ⟨0, 0, false, some k⟩) ⟨ls, ts⟩
      ⟨ls, ts⟩ := by
  refine .view fun v hv => ?_
  have hkind : v.kind = Lookahead.headKind ls := by rw [View.kind_eq, hv]
  generalize Lookahead.headKind ls = next at h hkind
  simp only [EndsRun, List.mem_cons, List.not_mem_nil, or_false] at h
  obtain (rfl | rfl) | ⟨rfl, rfl⟩ := h
  · rw [if_pos (by simp [Run.isEmpty, exprEnds, hkind])]
    exact .pure
  · rw [if_pos (by simp [Run.isEmpty, exprEnds, hkind])]
    exact .pure
  · -- the brace ends no run by itself, but a condition
    rw [hkind]
    split
    · exact .pure
    · exact .pure

/-- A word or literal alone, in front of what ends an expression. -/
theorem recovers_operand (h : IsOperand k text)
    (hrest : EndsRun place (Token.kindAt rest 0)) :
    Recovers (follow (.expr place)) true [.node .expr [.leaf ⟨k, text⟩]] rest := by
  have hall : ∀ k ∈ [TokenKind.ident, .intLiteral, .floatLiteral, .stringLiteral, .kwTrue, .kwFalse,
      .kwNil], k.isTrivia = false ∧ k ≠ .eof ∧ beginsExpr place k = true := by
    cases place <;> decide
  obtain ⟨htrivia, heof, hbegins⟩ := hall k h.kind_mem
  have hloop : Recovers (.loop (exprStep place) {} fun r => do
      if 0 < r.depth then report .openBracket) () [.leaf ⟨k, text⟩] rest := by
    intro gap
    have hbehind : behind gap [.leaf ⟨k, text⟩] = .none :=
      Lexeme.behind_of_snug (.cons (.leaf htrivia) .nil) (by simp)
    have hleaf : forestWithoutTrivia [.leaf ⟨k, text⟩] = [.leaf ⟨k, text⟩] := by
      simp [forestWithoutTrivia, withoutTrivia, Token.isTrivia, htrivia]
    rw [← Lexeme.headKind_ahead .none] at hrest
    rw [forestLeaves, leaves, forestLeaves, List.append_nil, List.singleton_append,
      Lexeme.ahead_cons htrivia, hbehind, hleaf]
    exact Reads.loop (.again (reads_exprStep_operand h gap _) (by simp)
      (.stop (reads_exprStep_stop k hrest))) .pure
  refine .follow ?_
  show Recovers (expression place) true _ rest
  unfold expression
  refine .kind ?_
  have hfirst : Token.kindAt (forestLeaves [.node .expr [.leaf ⟨k, text⟩]] ++ rest) 0 = k :=
    Token.kindAt_zero htrivia
  rw [hfirst, if_pos hbegins]
  exact (Recovers.node hloop).last .pure

/-! ## Items and files -/

theorem recovers_items_none
    (hends : ∀ v : View, v.kind = Token.kindAt rest 0 → (v.atEnd || endsItems scope v) = true) :
    Recovers (items scope) () [] rest := by
  refine RecoversAll.repeating (.stop (.view fun gap v hv => ?_))
  rw [if_pos (hends v (View.kindAt_of_ahead hv 0))]
  exact .pure

/-- A list of a single item. -/
theorem recovers_items (h : Recovers (item scope) () [t] rest) (ht : t.Snug)
    (hgo : ∀ v : View, v.kind = Token.kindAt (t.leaves ++ rest) 0 →
      (v.atEnd || endsItems scope v) = false)
    (hends : ∀ v : View, v.kind = Token.kindAt rest 0 → (v.atEnd || endsItems scope v) = true) :
    Recovers (items scope) () [t] rest := by
  have hsnug : SnugForest [t] := .cons ht .nil
  have hleaves : forestLeaves [t] = t.leaves := by rw [forestLeaves, forestLeaves, List.append_nil]
  have hlt : ∀ gap, (ahead .none rest).length < (ahead gap (forestLeaves [t] ++ rest)).length :=
    fun _ => Lexeme.length_ahead_lt hsnug (List.cons_ne_nil t []) rest
  intro gap
  have hread := h gap
  have hbehind : behind gap [t] = .none := Lexeme.behind_of_snug hsnug (List.cons_ne_nil t [])
  rw [hbehind] at hread ⊢
  refine Reads.repeating (d := ⟨ahead .none rest, forestWithoutTrivia [t]⟩)
    (.single ⟨.view fun v hv => ?_, hlt gap⟩) (.view fun v hv => ?_)
  · have hfirst := View.kindAt_of_ahead hv 0
    rw [hleaves] at hfirst
    rw [hgo v hfirst, if_neg Bool.false_ne_true]
    refine hread.bind (.view fun w hw => ?_)
    rw [hv, hw, if_neg (by simpa using Nat.ne_of_lt (hlt gap))]
    exact .pure
  · rw [if_pos (hends v (View.kindAt_of_ahead hv 0))]
    exact .pure

/-- A file of a single item, which is recovered from the tokens of the file. -/
theorem parse_of_recovers (h : Recovers (item .topLevel) () [t] []) (ht : t.Snug)
    (hgo : ∀ v : View, v.kind = Token.kindAt (t.leaves ++ []) 0 →
      (v.atEnd || endsItems .topLevel v) = false)
    (hsource : lex source = t.leaves) : parse source = ⟨.node .sourceFile [t], []⟩ := by
  have hend : ∀ v : View, v.kind = Token.kindAt [] 0 → v.atEnd = true := by
    intro v hv
    rw [View.atEnd, hv]
    rfl
  have hfile : Recovers file () [t] [] := by
    have hitems : Recovers (items .topLevel) () [t] [] :=
      recovers_items h ht hgo fun v hv => by rw [hend v hv, Bool.true_or]
    refine Recovers.last (.follow' (r := .items .topLevel) (hitems.last .pure)) ?_
    refine RecoversAll.repeating (.stop (.view fun gap v hv => ?_))
    rw [if_pos (hend v (View.kindAt_of_ahead hv 0))]
    exact .pure
  have hleaves : forestLeaves [t] = t.leaves := by rw [forestLeaves, forestLeaves, List.append_nil]
  have hread := hfile .none
  rw [List.append_nil, hleaves] at hread
  have hstate : finalState t.leaves = (State.initial (ahead .none t.leaves)
      (Lexeme.ofTokens t.leaves).2).after ⟨[], forestWithoutTrivia [t]⟩ := parseLexemes_of_reads hread _
  have hroot := SnugForest.rootWithTrivia_eq (.cons ht .nil)
  rw [hleaves] at hroot
  rw [parse, hsource, parseTokens, hstate]
  simp only [State.after, State.initial, List.append_nil, List.reverse_reverse, hroot]
  rfl

end Grammar

end SwiftOutline
