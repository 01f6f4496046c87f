/-
  SwiftOutline.Proofs.Outline.StrayClosers

  Closing brackets in front of a text. Each of them is reported and set aside by
  itself, be it by the list of items or, for a brace, by the file, and what comes
  behind them is parsed as if they were not there. Neither the tree nor the
  problems nor the outline of what follows change.
-/
import SwiftOutline.Proofs.Outline.Ahead
import SwiftOutline.Proofs.Parser.Framed
import SwiftOutline.Proofs.Parser.Growth
import SwiftOutline.Proofs.Token.Locality
import SwiftOutline.Proofs.Token.Spelling
import SwiftOutline.Proofs.Tree.Diagnostics
import SwiftOutline.Proofs.Tree.Snug

namespace SwiftOutline

/-! ## Setting a lexeme aside -/

namespace State

/-- The state behind the lexeme `l`, which has been reported and set aside. -/
def aside (s : State) (p : Problem) (l : Lexeme) (ls : List Lexeme) : State where
  view := { s.view with lexemes := ls }
  built := .node .unexpected [.leaf l.token] :: s.built
  reports := ⟨p, s.left⟩ :: s.reports

end State

namespace Grammar

open SwiftOutline.Parser
open SwiftOutline.State (kind_of_lexemes)

variable {call : Rule → State → Bool × State} {s t : State} {l : Lexeme} {ls : List Lexeme}

theorem atEnd_of_isCloser (hl : s.view.lexemes = l :: ls) (hk : l.kind.isCloser = true) :
    s.view.atEnd = false := by
  rw [View.atEnd, kind_of_lexemes hl, beq_eq_false_iff_ne]
  intro h
  rw [h] at hk
  exact absurd hk (by decide)

theorem depthAfter_closer {k : TokenKind} (hk : k.isCloser = true) : depthAfter 0 k = 0 := by
  have hopen : k.isOpener = false := by
    cases k <;> first | rfl | exact nomatch hk
  rw [depthAfter, hopen, hk]
  rfl

theorem run_bumpInside_closer (hl : s.view.lexemes = l :: ls) (hk : l.kind.isCloser = true) :
    (bumpInside 0).run call s = (.stop 0, s.consume) := by
  have hdepth := depthAfter_closer (k := s.view.kind) (by rwa [kind_of_lexemes hl])
  rw [bumpInside, run_view_bind, run_ite, if_neg (by simp [atEnd_of_isCloser hl hk]), run_bind,
    run_bump]
  dsimp only
  rw [hdepth]
  rfl

/-- A closing bracket is balanced by itself. -/
theorem run_bumpBalanced_closer (hl : s.view.lexemes = l :: ls) (hk : l.kind.isCloser = true) :
    bumpBalanced.run call s = ((), s.consume) := by
  rw [bumpBalanced, run, runRounds, run_bumpInside_closer hl hk]
  rfl

/-- A closing bracket is all that recovery sets aside. -/
theorem run_recover_closer (hl : s.view.lexemes = l :: ls) (hk : l.kind.isCloser = true)
    (p : Problem) : (recover p).run call s = ((), s.aside p l ls) := by
  have hstart : ((s.complain p).start false).view.lexemes = l :: ls := hl
  obtain ⟨l', ls', hl', -, hconsume⟩ := State.consume_of_not_atEnd (atEnd_of_isCloser hstart hk)
  obtain ⟨rfl, rfl⟩ := List.cons.inj (hstart.symm.trans hl')
  rw [recover, run_bind, run_report, run_view_bind, run_ite,
    if_neg (by simpa using atEnd_of_isCloser (s := s.complain p) hl hk), run_node,
    run_bumpBalanced_closer hstart hk, hconsume]
  rfl

/-! ## Items and files -/

theorem isCloser_cases {k : TokenKind} (hk : k.isCloser = true) :
    k = .rParen ∨ k = .rBracket ∨ k = .rBrace := by
  cases k <;> simp_all [TokenKind.isCloser]

/-- No declaration begins with a closing bracket. -/
theorem declaration?_closer (hk : l.kind.isCloser = true) (scope : Scope) :
    Lookahead.declaration? scope (l :: ls) = none := by
  rcases isCloser_cases hk with h | h | h <;>
    simp [Lookahead.declaration?, Lookahead.skipAttributes, Lookahead.skipModifiers,
      Lookahead.skipMany, Lookahead.skipAttribute?, Lookahead.skipModifier?, Lookahead.atModifier,
      Lookahead.atModifierWord, Lookahead.headKind, h]

/-- One round of a list of items. -/
def itemRound (scope : Scope) : Parser Bool := do
  let before ← view
  if before.atEnd || endsItems scope before then pure false
  else
    item scope
    let after ← view
    if after.lexemes.length == before.lexemes.length then recover .strayToken
    pure true

theorem items_eq (scope : Scope) : items scope = repeating (itemRound scope) := rfl

/-- One round of recovery between the lists of items of a file. -/
def fileRound : Parser Bool := do
  if (← view).atEnd then pure false
  else
    recover .topLevelToken
    follow' (.items .topLevel)
    pure true

theorem file_eq : file = (do follow' (.items .topLevel); repeating fileRound) := rfl

theorem run_item_closer (hl : s.view.lexemes = l :: ls) (hk : l.kind.isCloser = true) :
    (item .topLevel).run call s = ((), s.aside .strayCloser l ls) := by
  have hstatement : statement.run call s = ((), s.aside .strayCloser l ls) := by
    rw [statement, run_kind_bind, kind_of_lexemes hl]
    rcases isCloser_cases hk with h | h | h <;>
    · rw [h]
      exact run_recover_closer hl hk .strayCloser
  have hdeclaration : (declarationOrStatement .topLevel).run call s =
      ((), s.aside .strayCloser l ls) := by
    rw [declarationOrStatement, run_view_bind, hl, declaration?_closer hk]
    exact hstatement
  rw [item, run_kind_bind, kind_of_lexemes hl]
  rcases isCloser_cases hk with h | h | h <;>
  · rw [h]
    exact hdeclaration

/-- A list of items at the top level goes on behind a bracket that is no brace. -/
theorem run_itemRound_closer (hl : s.view.lexemes = l :: ls) (hk : l.kind.isCloser = true)
    (hbrace : l.kind ≠ .rBrace) :
    (itemRound .topLevel).run call s = (true, s.aside .strayCloser l ls) := by
  have hends : endsItems .topLevel s.view = false := by
    rw [endsItems, kind_of_lexemes hl]
    rcases isCloser_cases hk with h | h | h
    · rw [h]
    · rw [h]
    · exact absurd h hbrace
  have hlength : ((s.aside .strayCloser l ls).view.lexemes.length == s.view.lexemes.length) =
      false := by
    rw [hl]
    simp [State.aside]
  rw [itemRound, run_view_bind, run_ite, atEnd_of_isCloser hl hk, hends,
    if_neg (by decide), run_bind_of_run (run_item_closer hl hk), run_view_bind, hlength]
  rfl

/-- A closing brace ends it. -/
theorem run_itemRound_brace (hl : s.view.lexemes = l :: ls) (hk : l.kind = .rBrace)
    (scope : Scope) : (itemRound scope).run call s = (false, s) := by
  have hends : endsItems scope s.view = true := by
    rw [endsItems, kind_of_lexemes hl, hk]
  rw [itemRound, run_view_bind, run_ite, hends, if_pos (Bool.or_true _), run_pure]

theorem left_aside (hl : s.view.lexemes = l :: ls) (p : Problem) :
    (s.aside p l ls).left + 1 = s.left := by
  rw [State.left, State.left, hl, List.length_cons]
  rfl

theorem run_items_closer (hl : s.view.lexemes = l :: ls) (hk : l.kind.isCloser = true)
    (hbrace : l.kind ≠ .rBrace) :
    (items .topLevel).run call s = (items .topLevel).run call (s.aside .strayCloser l ls) := by
  rw [items_eq, run_repeating, run_repeating, ← left_aside hl .strayCloser, roundsOf,
    run_itemRound_closer hl hk hbrace]
  rfl

theorem run_items_brace (hl : s.view.lexemes = l :: ls) (hk : l.kind = .rBrace) :
    (items .topLevel).run call s = ((), s) := by
  rw [items_eq, run_repeating, roundsOf, run_itemRound_brace hl hk]
  rfl

/-- Rounds enough are as good as any more, if each that goes on consumes a lexeme. -/
theorem roundsOf_congr {round : State → Bool × State}
    (hround : ∀ s, (round s).1 = true → (round s).2.left < s.left) {n m : Nat} (hn : s.left < n)
    (hm : s.left < m) : roundsOf round n s = roundsOf round m s := by
  induction n generalizing s m with
  | zero => exact absurd hn (Nat.not_lt_zero _)
  | succ n ih =>
    obtain ⟨m, rfl⟩ : ∃ k, m = k + 1 := ⟨m - 1, by omega⟩
    rw [roundsOf, roundsOf]
    split
    · next hgo =>
      have hlt := hround s hgo
      exact ih (by omega) (by omega)
    · rfl

theorem run_bumpInside (hend : s.view.atEnd = false) (depth : Nat) :
    ((bumpInside depth).run call s).2 = s.consume := by
  rw [bumpInside, run_view_bind, run_ite, if_neg (by simp [hend]), run_bind, run_bump]
  rfl

/-- Recovery consumes a lexeme, unless there is none. -/
theorem left_recover_lt (hcall : ∀ r s, State.Leads s (call r s).2) (hend : s.view.atEnd = false)
    (p : Problem) : ((recover p).run call s).2.left < s.left := by
  have hstart : ((s.complain p).start false).view.atEnd = false := hend
  have hconsume : ((s.complain p).start false).consume.left < s.left :=
    State.left_consume_lt hstart
  have hbump : (bumpBalanced.run call ((s.complain p).start false)).2.left < s.left := by
    refine Nat.lt_of_le_of_lt ?_ hconsume
    rw [bumpBalanced, run_loop, runRounds]
    -- what comes behind the first round does not go back
    cases hround : (bumpInside 0).run call ((s.complain p).start false) with
    | mk step t =>
      have ht : t = ((s.complain p).start false).consume := by
        have hstep : ((bumpInside 0).run call ((s.complain p).start false)).2 = _ :=
          run_bumpInside hstart 0
        rw [hround] at hstep
        exact hstep
      subst ht
      cases step with
      | stop depth =>
        show ((s.complain p).start false).consume.left ≤ _
        exact Nat.le_refl _
      | again depth =>
        have hrest := runRounds_leads (fun a u => run_leads hcall (bumpInside a) u)
          ((s.complain p).start false).view.lexemes.length depth
          ((s.complain p).start false).consume
        exact hrest.left_le
  have hcomplain : (s.complain p).view.atEnd = false := hend
  rw [recover, run_bind, run_report, run_view_bind, run_ite]
  dsimp only
  rw [hcomplain, if_neg Bool.false_ne_true, run_node]
  exact hbump

theorem left_fileRound_lt (hcall : ∀ r s, State.Leads s (call r s).2)
    (hgo : (fileRound.run call s).1 = true) : (fileRound.run call s).2.left < s.left := by
  rw [fileRound, run_view_bind, run_ite] at hgo ⊢
  cases hend : s.view.atEnd with
  | true =>
    rw [hend] at hgo
    exact nomatch hgo
  | false =>
    rw [if_neg Bool.false_ne_true, run_bind, run_bind]
    exact Nat.lt_of_le_of_lt ((hcall _ _).left_le) (left_recover_lt hcall hend _)

/-- Behind a closing bracket, a file is parsed as if it began there. -/
theorem run_file_closer (depth : Nat) (hl : s.view.lexemes = l :: ls)
    (hk : l.kind.isCloser = true) :
    file.run (runRule (depth + 1)) s = file.run (runRule (depth + 1))
      (s.aside (if l.kind = .rBrace then .topLevelToken else .strayCloser) l ls) := by
  have hitems : ∀ s, runRule (depth + 1) (.items .topLevel) s =
      (true, ((items .topLevel).run (runRule depth) s).2) := fun s => run_bind _ _ s
  rw [file_eq, run_bind, run_bind, run_follow', run_follow', hitems, hitems]
  by_cases hbrace : l.kind = .rBrace
  · -- the list of items ends at once, and recovery is followed by the next one
    rw [if_pos hbrace, run_items_brace hl hbrace, run_repeating, run_repeating, roundsOf]
    dsimp only
    have hround : fileRound.run (runRule (depth + 1)) s =
        (true, ((items .topLevel).run (runRule depth) (s.aside .topLevelToken l ls)).2) := by
      rw [fileRound, run_view_bind, run_ite, atEnd_of_isCloser hl hk,
        if_neg Bool.false_ne_true, run_bind_of_run (run_recover_closer hl hk .topLevelToken),
        run_bind, run_follow', hitems, run_pure]
    rw [hround, if_pos rfl]
    have hle := (run_leads (runRule_leads depth) (items .topLevel)
      (s.aside .topLevelToken l ls)).left_le
    have hleft := left_aside (s := s) hl .topLevelToken
    have hlt : ((items .topLevel).run (runRule depth) (s.aside .topLevelToken l ls)).2.left <
        s.left := by omega
    exact congrArg (Prod.mk ()) (roundsOf_congr
      (fun _ => left_fileRound_lt (runRule_leads (depth + 1))) hlt (Nat.lt_succ_self _))
  · rw [if_neg hbrace, run_items_closer hl hk hbrace]

end Grammar

/-! ## One closing bracket -/

/-- The problem that a stray closing bracket is. -/
def strayProblem (k : TokenKind) : Problem := if k = .rBrace then .topLevelToken else .strayCloser

namespace Grammar

/-- A closing bracket in front of some lexemes is the first problem and the first node. -/
theorem parseLexemes_closer {l : Lexeme} (hk : l.kind.isCloser = true) (ls : List Lexeme)
    (endGap : Gap) :
    parseLexemes (l :: ls) endGap =
      (parseLexemes ls endGap).framed [.node .unexpected [.leaf l.token]]
        [⟨strayProblem l.kind, ls.length + 1⟩] := by
  obtain ⟨t, -, -, hrun⟩ := exists_proceeds_file ls endGap
  have hstart : (State.initial (l :: ls) endGap).aside (strayProblem l.kind) l ls =
      (State.initial ls endGap).framed [.node .unexpected [.leaf l.token]]
        [⟨strayProblem l.kind, ls.length + 1⟩] := rfl
  -- one rule more may be followed inside each other than there has to be room for
  have hclose := run_file_closer (4 * (l :: ls).length + 3)
    (s := State.initial (l :: ls) endGap) rfl hk
  rw [parseLexemes, show depthBound (l :: ls).length = 4 * (l :: ls).length + 3 + 1 from rfl, hclose]
  show (Parser.run _ file ((State.initial (l :: ls) endGap).aside (strayProblem l.kind) l ls)).2 = _
  rw [hstart, ignores_run_file, hrun _ (by simp [depthBound]; omega), parseLexemes,
    hrun _ (Nat.le_refl _)]

/-- No report is made ahead of the first lexeme. -/
theorem remaining_le_of_mem {ls : List Lexeme} {endGap : Gap} {r : Report}
    (hr : r ∈ (parseLexemes ls endGap).reports) : r.remaining ≤ ls.length := by
  -- a report at the first lexeme that comes from before is older than all others
  have hstart : ((State.initial ls endGap).framed [] [⟨.strayToken, ls.length⟩]).Orderly := by
    refine ⟨List.pairwise_singleton _ _, fun r hr => ?_⟩
    rw [List.mem_singleton.mp hr]
    exact Nat.le_refl _
  have hkeeps : ∀ s : State, s.KeepsOrder (file.run (runRule (depthBound ls.length)) s).2 :=
    Parser.Makes.by (K := State.keepingOrder) (keepsOrder_runRule _)
      (Parser.makes_of_forall fun _ => trivial)
  have hfinal := ((hkeeps _).orderly hstart).sorted
  rw [ignores_run_file, State.framed] at hfinal
  rw [parseLexemes] at hr
  exact (List.pairwise_append.mp hfinal).2.2 r hr _ (List.mem_singleton.mpr rfl)

end Grammar

section Closer

variable {t : Token} {ts : List Token}

theorem isTrivia_of_isCloser (ht : t.kind.isCloser = true) : t.isTrivia = false := by
  rcases Grammar.isCloser_cases ht with h | h | h <;> rw [Token.isTrivia, h] <;> rfl

theorem finalState_closer (ht : t.kind.isCloser = true) (ts : List Token) :
    finalState (t :: ts) =
      (finalState ts).framed [.node .unexpected [.leaf t]]
        [⟨strayProblem t.kind, (Token.significant ts).length + 1⟩] := by
  have hlexemes : Lexeme.ofTokens (t :: ts) =
      (⟨t.kind, t.text, .none⟩ :: (Lexeme.ofTokens ts).1, (Lexeme.ofTokens ts).2) := by
    rw [Lexeme.ofTokens, Lexeme.ofTokensAfter, if_neg (by simp [isTrivia_of_isCloser ht])]
    rfl
  have hlength : (Lexeme.ofTokens ts).1.length = (Token.significant ts).length := by
    rw [← Lexeme.map_token_ofTokens, List.length_map]
  rw [finalState, hlexemes]
  dsimp only
  rw [Grammar.parseLexemes_closer ht, hlength]
  rfl

/-- A node of the first token alone stands ahead of all trivia. -/
theorem Tree.rootWithTrivia_cons (ht : t.isTrivia = false) (k : NodeKind) (children : List Tree)
    (ts : List Token) :
    rootWithTrivia (.node k [.leaf t] :: children) (t :: ts) =
      .node .sourceFile (.node k [.leaf t] :: (rootWithTrivia children ts).children) := by
  have hsnug : Snug (.node k [.leaf t]) := .node (.leaf ht) .nil
  have hbare : withoutTrivia (.node k [.leaf t]) = .node k [.leaf t] := by
    rw [withoutTrivia, forestWithoutTrivia, if_neg (by simp [isTriviaLeaf, ht]),
      forestWithoutTrivia, withoutTrivia]
  have hweave := hsnug.weave_eq _ ts
  rw [hbare, leaves, forestLeaves, forestLeaves, leaves, List.append_nil,
    List.singleton_append] at hweave
  rw [rootWithTrivia, rootWithTrivia, weaveForest_cons rfl ht, hweave]
  rfl

theorem Tree.node_children_rootWithTrivia (children : List Tree) (ts : List Token) :
    .node .sourceFile (rootWithTrivia children ts).children = rootWithTrivia children ts := rfl

theorem tree_parseTokens (ts : List Token) :
    (parseTokens ts).tree = Tree.rootWithTrivia (finalState ts).built.reverse ts := by
  rw [parseTokens]

theorem diagnostics_parseTokens (ts : List Token) :
    (parseTokens ts).diagnostics = Report.locateAll ts (finalState ts).reports.reverse := by
  rw [parseTokens]

/-- A closing bracket becomes the first child of the root. -/
theorem tree_closer (ht : t.kind.isCloser = true) (ts : List Token) :
    (parseTokens (t :: ts)).tree =
      .node .sourceFile (.node .unexpected [.leaf t] :: (parseTokens ts).tree.children) := by
  rw [tree_parseTokens, tree_parseTokens, finalState_closer ht, State.framed, List.reverse_append,
    List.reverse_singleton, List.singleton_append,
    Tree.rootWithTrivia_cons (isTrivia_of_isCloser ht)]

theorem Token.significantSpans_cons (ht : t.isTrivia = false) (ts : List Token) :
    significantSpans (t :: ts) =
      ⟨0, t.size⟩ :: (significantSpans ts).map (Span.shift t.size) := by
  have hlayout := map_shift_layout t.size 0 ts
  rw [significantSpans, layout, ← hlayout, List.filter_cons_of_pos (by simp [ht]), List.map_cons,
    significantSpans, Nat.zero_add, List.filter_map, List.map_map, List.map_map]
  rfl

theorem Token.placeOf_cons (ht : t.isTrivia = false) (ts : List Token) (i : Nat) :
    placeOf (t :: ts) (i + 1) = (placeOf ts i).shift t.size := by
  rw [placeOf, placeOf, significantSpans_cons ht, List.getD_cons_succ, totalSize,
    List.getD_eq_getElem?_getD, List.getD_eq_getElem?_getD, List.getElem?_map]
  cases (significantSpans ts)[i]? with
  | none => simp [Span.shift, Nat.add_comm]
  | some span => rfl

/-- The same problem, with `offset` more bytes in front of it. -/
def Diagnostic.shift (offset : Nat) (d : Diagnostic) : Diagnostic :=
  { d with span := d.span.shift offset }

theorem Diagnostic.shift_zero : shift 0 = id := rfl

theorem Diagnostic.shift_comp (m n : Nat) : shift n ∘ shift m = shift (m + n) := by
  funext d
  simp [shift, Span.shift, Nat.add_assoc]

/-- The other problems are where they were, but for the bracket. -/
theorem diagnostics_closer (ht : t.kind.isCloser = true) (ts : List Token) :
    (parseTokens (t :: ts)).diagnostics =
      ⟨strayProblem t.kind, ⟨0, t.size⟩⟩ ::
        (parseTokens ts).diagnostics.map (Diagnostic.shift t.size) := by
  have htrivia := isTrivia_of_isCloser ht
  have hcount : (Token.significant (t :: ts)).length = (Token.significant ts).length + 1 := by
    rw [Token.significant, List.filter_cons_of_pos (by simp [htrivia]), List.length_cons]
    rfl
  have hlength : (Lexeme.ofTokens ts).1.length = (Token.significant ts).length := by
    rw [← Lexeme.map_token_ofTokens, List.length_map]
  rw [diagnostics_parseTokens, diagnostics_parseTokens, finalState_closer ht,
    Report.locateAll_eq, Report.locateAll_eq, State.framed, List.reverse_append,
    List.reverse_singleton, List.singleton_append, List.map_cons, List.map_map]
  refine List.cons_eq_cons.mpr ⟨congrArg (Diagnostic.mk _) ?_, ?_⟩
  · rw [Report.tokenIndex, hcount, Nat.sub_self]
    have hplace := Token.placeOf_append [] ts htrivia
    simpa [Token.significant, Token.totalSize] using hplace
  · refine List.map_congr_left fun r hr => ?_
    have hle : r.remaining ≤ (Token.significant ts).length := by
      rw [← hlength]
      exact Grammar.remaining_le_of_mem (List.mem_reverse.mp hr)
    have hindex : r.tokenIndex (t :: ts) = r.tokenIndex ts + 1 := by
      rw [Report.tokenIndex, Report.tokenIndex, hcount]
      omega
    rw [hindex, Token.placeOf_cons htrivia]
    rfl

end Closer

/-! ## Closing brackets in front of a text -/

/-- The token of a bracket. -/
def bracketToken (c : Char) : Token := ⟨Lexer.punctuationKind c, String.singleton c⟩

/-- The node in which a stray closing bracket is set aside. -/
def strayNode (c : Char) : Tree := .node .unexpected [.leaf (bracketToken c)]

/-- The report of a stray closing bracket at an offset. -/
def strayDiagnostic (p : Char × Nat) : Diagnostic :=
  ⟨strayProblem (bracketToken p.1).kind, ⟨p.2, p.2 + 1⟩⟩

section Closers

open Lexer (tokensOf)

variable {w : List Char}

theorem isCloser_bracketToken {c : Char} (hc : c ∈ [')', ']', '\x7d']) :
    (bracketToken c).kind.isCloser = true := by
  have hall : ∀ c ∈ [')', ']', '\x7d'], (bracketToken c).kind.isCloser = true :=
    Lexer.forall_mem_of_all (by decide)
  exact hall c hc

theorem size_bracketToken {c : Char} (hc : c ∈ [')', ']', '\x7d']) :
    (bracketToken c).size = 1 := by
  have hall : ∀ c ∈ [')', ']', '\x7d'], (bracketToken c).size = 1 :=
    Lexer.forall_mem_of_all (by decide)
  exact hall c hc

theorem tokensOf_closer {c : Char} (hc : c ∈ [')', ']', '\x7d']) (cs : List Char) :
    tokensOf (c :: cs) = bracketToken c :: tokensOf cs := by
  have hall : ∀ c ∈ [')', ']', '\x7d'], c ∈ "()[]\x7b\x7d,:@".toList :=
    Lexer.forall_mem_of_all (by decide)
  exact Lexer.tokensOf_punctuation (hall c hc)

/-- Closing brackets in front of a text become the first children of the root, one node each. -/
theorem tree_closers (hw : ∀ c ∈ w, c ∈ [')', ']', '\x7d']) (cs : List Char) :
    (parseTokens (tokensOf (w ++ cs))).tree =
      .node .sourceFile (w.map strayNode ++ (parseTokens (tokensOf cs)).tree.children) := by
  induction w with
  | nil =>
    rw [List.map_nil, List.nil_append, List.nil_append, tree_parseTokens,
      Tree.node_children_rootWithTrivia]
  | cons c w ih =>
    obtain ⟨hc, hw⟩ := List.forall_mem_cons.mp hw
    rw [List.cons_append, tokensOf_closer hc, tree_closer (isCloser_bracketToken hc), ih hw]
    rfl

/-- They are reported one by one, ahead of all other problems. -/
theorem diagnostics_closers (hw : ∀ c ∈ w, c ∈ [')', ']', '\x7d']) (cs : List Char) :
    (parseTokens (tokensOf (w ++ cs))).diagnostics =
      w.zipIdx.map strayDiagnostic ++
        (parseTokens (tokensOf cs)).diagnostics.map (Diagnostic.shift w.length) := by
  induction w with
  | nil =>
    rw [List.length_nil, Diagnostic.shift_zero, List.map_id, List.zipIdx_nil, List.map_nil,
      List.nil_append, List.nil_append]
  | cons c w ih =>
    obtain ⟨hc, hw⟩ := List.forall_mem_cons.mp hw
    rw [List.cons_append, tokensOf_closer hc, diagnostics_closer (isCloser_bracketToken hc), ih hw,
      size_bracketToken hc, List.map_append, List.map_map, List.map_map, List.zipIdx_cons,
      List.zipIdx_succ, List.map_cons, List.map_map, List.length_cons, ← Diagnostic.shift_comp]
    rfl

end Closers

/-! ## Files with something in front -/

namespace Cursor

variable {start : Nat}

/-- Children in front of others leave the cursors for these as they are, but for the place. -/
theorem exists_childrenFrom_append (k : NodeKind) (start : Nat) (above : List Frame)
    (ts us before : List Tree) (offset : Nat) :
    ∃ es, childrenFrom k start above before offset (ts ++ us) =
        es ++ childrenFrom k start above (ts.reverse ++ before) (offset + Tree.forestSize ts) us ∧
      ∀ e ∈ es, e.tree ∈ ts := by
  induction ts generalizing before offset with
  | nil => exact ⟨[], rfl, fun e he => absurd he List.not_mem_nil⟩
  | cons t ts ih =>
    obtain ⟨es, hes, hmem⟩ := ih (t :: before) (offset + t.size)
    refine ⟨⟨t, offset, ⟨k, start, before, ts ++ us⟩ :: above⟩ :: es, ?_, ?_⟩
    · rw [List.cons_append, childrenFrom, hes, List.cons_append, Tree.forestSize,
        List.reverse_cons, List.append_assoc, List.singleton_append, Nat.add_assoc]
    · intro e he
      rcases List.mem_cons.mp he with rfl | he
      · exact List.mem_cons_self
      · exact List.mem_cons_of_mem _ (hmem e he)

theorem twin_childrenFrom {ts : List Tree} (hts : ∀ t ∈ ts, t.Tidy) (before before' : List Tree)
    (offset offset' : Nat) :
    List.Forall₂ Twin (childrenFrom .sourceFile start [] before offset ts)
      (childrenFrom .sourceFile start [] before' offset' ts) := by
  induction ts generalizing before before' offset offset' with
  | nil => exact .nil
  | cons t ts ih =>
    obtain ⟨ht, hts⟩ := List.forall_mem_cons.mp hts
    exact .cons ⟨⟨rfl, .root rfl rfl rfl⟩, ht⟩ (ih hts _ _ _ _)

end Cursor

namespace Outline

variable {m : ViewMode} {front ts : List Tree}

/-- What declares nothing changes the outline of nothing that comes behind it. -/
theorem same_of_front
    (hfront : ∀ e : Cursor, e.tree ∈ front → e.gather (visitDeclarations m) = [])
    (hts : ∀ t ∈ ts, t.Tidy) :
    same (ofCursor m (.ofTree (.node .sourceFile (front ++ ts))))
      (ofCursor m (.ofTree (.node .sourceFile ts))) = true := by
  obtain ⟨es, hes, hmem⟩ := Cursor.exists_childrenFrom_append .sourceFile 0 [] front ts [] 0
  have hnone : es.flatMap (Cursor.gather (visitDeclarations m)) = [] :=
    List.flatMap_eq_nil_iff.mpr fun e he => hfront e (hmem e he)
  rw [ofCursor_sourceFile, ofCursor_sourceFile, hes, List.flatMap_append, hnone, List.nil_append]
  exact same_ofNodes Cursor.agrees_twin
    (forall₂_flatMap (Cursor.twin_childrenFrom hts _ _ _ _)
      fun _ _ h => Cursor.agrees_twin.gather h)

end Outline

/-! ## Closing brackets in front of a file -/

/-- A bracket that is set aside declares nothing. -/
theorem gather_strayNode {e : Cursor} {c : Char} (h : e.tree = strayNode c) (m : ViewMode) :
    e.gather (visitDeclarations m) = [] := by
  obtain ⟨tree, start, above⟩ := e
  obtain rfl : tree = _ := h
  cases m <;> rfl

/-- Of closing brackets in front of a text each becomes a node of its own, and is reported where it
    stands. The children of the root are otherwise those of the text alone, the other problems are
    the same ones further behind, and the outline is the same, however the tree is looked at. -/
theorem parse_closers {w s : String} (hw : ∀ c ∈ w.toList, c ∈ [')', ']', '\x7d']) :
    (parse (w ++ s)).tree =
      .node .sourceFile (w.toList.map strayNode ++ (parse s).tree.children) ∧
    (parse (w ++ s)).diagnostics =
      w.toList.zipIdx.map strayDiagnostic ++
        (parse s).diagnostics.map (Diagnostic.shift w.length) ∧
    ∀ m, Outline.same (Outline.ofSource m (w ++ s)) (Outline.ofSource m s) = true := by
  have hlex : lex (w ++ s) = Lexer.tokensOf (w.toList ++ s.toList) := by
    rw [Lexer.lex_eq_tokensOf, String.toList_append]
  have htree : (parse (w ++ s)).tree =
      .node .sourceFile (w.toList.map strayNode ++ (parse s).tree.children) := by
    rw [parse, hlex, tree_closers hw]
    rfl
  refine ⟨htree, ?_, fun m => ?_⟩
  · rw [parse, hlex, diagnostics_closers hw]
    rfl
  · have hroot : (parse s).tree = .node .sourceFile (parse s).tree.children := by
      rw [parse, tree_parseTokens, Tree.node_children_rootWithTrivia]
    rw [Outline.ofSource, Outline.ofSource, htree]
    nth_rewrite 2 [hroot]
    refine Outline.same_of_front (fun e he => ?_) (tidy_of_mem_children_parse s)
    obtain ⟨c, -, hc⟩ := List.mem_map.mp he
    exact gather_strayNode hc.symm m

theorem parse_closers_let :
    (∀ c ∈ ")]\x7d".toList, c ∈ [')', ']', '\x7d']) ∧
    (parse (")]\x7d" ++ "\nlet a: = 1")).tree =
      .node .sourceFile (")]\x7d".toList.map strayNode ++
        (parse "\nlet a: = 1").tree.children) ∧
    (parse (")]\x7d" ++ "\nlet a: = 1")).diagnostics =
      ")]\x7d".toList.zipIdx.map strayDiagnostic ++
        (parse "\nlet a: = 1").diagnostics.map (Diagnostic.shift ")]\x7d".length) ∧
    ∀ m, Outline.same (Outline.ofSource m (")]\x7d" ++ "\nlet a: = 1"))
      (Outline.ofSource m "\nlet a: = 1") = true :=
  have hw : ∀ c ∈ ")]\x7d".toList, c ∈ [')', ']', '\x7d'] :=
    Lexer.forall_mem_of_all (by decide)
  ⟨hw, parse_closers hw⟩

end SwiftOutline
