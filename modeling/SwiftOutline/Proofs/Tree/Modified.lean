/-
  SwiftOutline.Proofs.Tree.Modified

  A modifier with a name in parentheses, on a line of its own in front of a
  declaration. Whatever the name is, and although the line could be a call, it
  becomes a modifier of the declaration, and nothing else changes.
-/
import SwiftOutline.Proofs.Parser.Introduced
import SwiftOutline.Proofs.Outline.StrayClosers
import SwiftOutline.Proofs.TypeExpr.Prefix
import SwiftOutline.Proofs.TypeShape.Parenthesized

namespace SwiftOutline

theorem TokenKind.isTrivia_of_isDeclKeyword {k : TokenKind} (h : k.isDeclKeyword = true) :
    k.isTrivia = false := by
  cases k <;> first | rfl | exact absurd h (by decide)

/-! ## Looking ahead -/

namespace Lookahead

variable {ls : List Lexeme} {m o a c l : Lexeme}

theorem skipMany_of_none {skip : List Lexeme → Option (List Lexeme)} (h : skip ls = none)
    (n : Nat) : skipMany skip n ls = ls := by
  cases n with
  | zero => rfl
  | succ n => rw [skipMany, h]

/-- The lexemes are a modifier with a name in parentheses. -/
structure IsDetailed (m o a c : Lexeme) : Prop where
  word : m.kind = .ident
  modifies : m.text ∈ modifierWords
  opens : o.kind = .lParen
  name : a.kind = .ident
  closes : c.kind = .rParen

namespace IsDetailed

theorem atModifier (h : IsDetailed m o a c) (ls : List Lexeme) : atModifier (m :: ls) = true := by
  simp [Lookahead.atModifier, headKind, h.word, atModifierWord, h.modifies]

theorem atModifierDetail (h : IsDetailed m o a c) (ls : List Lexeme) :
    atModifierDetail (o :: a :: c :: ls) = true := by
  simp [Lookahead.atModifierDetail, headKind, h.opens, h.name, h.closes]

theorem skipModifiers (h : IsDetailed m o a c) (hls : Lookahead.atModifier ls = false) :
    skipModifiers (m :: o :: a :: c :: ls) = ls := by
  have hskip : skipModifier? (m :: o :: a :: c :: ls) = some ls := by
    rw [skipModifier?, if_pos (h.atModifier _), List.drop_succ_cons, List.drop_zero,
      if_pos (h.atModifierDetail ls)]
    rfl
  have hnone : skipModifier? ls = none := by rw [skipModifier?, if_neg (by simp [hls])]
  rw [Lookahead.skipModifiers, List.length_cons, skipMany, hskip]
  exact skipMany_of_none hnone _

/-- It introduces what the lexemes behind it do. -/
theorem declaration?_eq (h : IsDetailed m o a c) (ls : List Lexeme) (hat : headKind ls ≠ .atSign)
    (hls : Lookahead.atModifier ls = false) (scope : Scope) :
    declaration? scope (m :: o :: a :: c :: ls) = declaration? scope ls := by
  rw [declaration?, declaration?, skipAttributes_of_ne (by simp [headKind, h.word]),
    h.skipModifiers hls, skipAttributes_of_ne hat, skipModifiers_of_not hls]

end IsDetailed

end Lookahead

namespace Grammar

open SwiftOutline.Parser
open Lookahead (IsDetailed)

variable {ls : List Lexeme} {m o a c l : Lexeme} {k : NodeKind}

/-- A word that introduces a declaration where it is no modifier. It decides what follows it. -/
theorem exists_declaration {kind : TokenKind} (hkind : kind.isDeclKeyword = true) :
    ∃ (k : NodeKind) (p : Parser Unit), declarationRest k = (bump >>= fun _ => p) ∧
      ∀ {l ls}, l.kind = kind → Lookahead.atModifier (l :: ls) = false →
        Lookahead.declaration? .topLevel (l :: ls) = some k := by
  have hskip : ∀ {l ls}, l.kind = kind → Lookahead.atModifier (l :: ls) = false →
      Lookahead.skipModifiers (Lookahead.skipAttributes (l :: ls)) = l :: ls := by
    intro l ls hl hplain
    have hat : Lookahead.headKind (l :: ls) ≠ .atSign := by
      intro h
      rw [← hl, show l.kind = .atSign from h] at hkind
      exact absurd hkind (by decide)
    rw [Lookahead.skipAttributes_of_ne hat, Lookahead.skipModifiers_of_not hplain]
  cases kind <;> first
    | exact absurd hkind (by decide)
    | exact ⟨_, _, rfl, fun hl hplain => by
        rw [Lookahead.declaration?, hskip hl hplain, Lookahead.headKind, hl]⟩

/-- The tree of a modifier with a name in parentheses. -/
def detailedModifier (m o a c : Lexeme) : Tree :=
  .node .modifierList [.node .modifier [m.leaf, .node .modifierDetail [o.leaf, a.leaf, c.leaf]]]

theorem reads_modifier (h : IsDetailed m o a c) :
    Reads modifier () ⟨m :: o :: a :: c :: ls, []⟩
      ⟨ls, [.node .modifier [m.leaf, .node .modifierDetail [o.leaf, a.leaf, c.leaf]]]⟩ := by
  unfold modifier
  refine Reads.node [] ((Reads.bump (by simp [h.word])).bind (Reads.view fun v hv => ?_))
  rw [hv, if_pos (h.atModifierDetail ls)]
  refine Reads.node [m.leaf] ((Reads.bump (by simp [h.opens])).bind ?_)
  exact (Reads.bump (by simp [h.name])).bind (Reads.bump (by simp [h.closes]))

theorem reads_modifiers (h : IsDetailed m o a c) (ls : List Lexeme)
    (hls : Lookahead.atModifier ls = false) :
    Reads modifiers () ⟨m :: o :: a :: c :: ls, []⟩ ⟨ls, [detailedModifier m o a c]⟩ := by
  have hround : ReadsOn nextModifier ⟨m :: o :: a :: c :: ls, []⟩ ⟨ls, [.node .modifier
      [m.leaf, .node .modifierDetail [o.leaf, a.leaf, c.leaf]]]⟩ := by
    refine ⟨Reads.view fun v hv => ?_, by simp only [List.length_cons]; omega⟩
    rw [hv, if_pos (h.atModifier _)]
    exact (reads_modifier h).bind Reads.pure
  unfold modifiers
  refine Reads.view fun v hv => ?_
  rw [hv, if_pos (h.atModifier _)]
  refine Reads.node [] (Reads.repeating (.single hround) (Reads.view fun w hw => ?_))
  rw [hw, if_neg (by simp [hls])]
  exact Reads.pure

/-! ## Runs -/

section Runs

variable {call : Rule → State → Bool × State} {s s' : State} {p : Parser Unit}

theorem run_attributes_none (h : Lookahead.headKind s.view.lexemes ≠ .atSign) :
    attributes.run call s = ((), s) := by
  rw [attributes, run_sees_bind, View.kind_eq, run_ite, if_neg (by simpa using h), run_pure]

theorem run_modifiers_none (h : Lookahead.atModifier s.view.lexemes = false) :
    modifiers.run call s = ((), s) := by
  rw [modifiers, run_view_bind, run_ite, if_neg (by simp [h]), run_pure]

/-- The state behind the first lexeme of a declaration, with what was built of it before. -/
def behindKeyword (s : State) (l : Lexeme) (ls : List Lexeme) (front : List Tree) : State where
  view := { s.view with lexemes := ls }
  built := l.leaf :: front
  reports := s.reports

/-- A declaration is made of what its front reads, its keyword, and what follows that. -/
theorem run_declaration_of_front (front : List Tree) (hkind : l.kind ≠ .eof)
    (hrest : declarationRest k = (bump >>= fun _ => p))
    (hattributes : attributes.run call (s.start false) = ((), s.start false))
    (hmodifiers : modifiers.run call (s.start false) =
      ((), { s.start false with view := { s.view with lexemes := l :: ls }, built := front })) :
    (declaration k).run call s =
      ((), (p.run call (behindKeyword s l ls front)).2.finish s false (some k)) := by
  rw [declaration, run_node, run_bind_of_run hattributes, run_bind_of_run hmodifiers, hrest,
    run_bind, run_bump]
  simp [State.consume, hkind, behindKeyword, State.start, Lexeme.leaf]

/-- Nothing but a declaration or a statement begins with a word. -/
theorem run_item_word (hkind : s.view.kind.isDeclKeyword = true ∨ s.view.kind = .ident) :
    (item .topLevel).run call s = (declarationOrStatement .topLevel).run call s := by
  rw [item, run_kind_bind]
  generalize s.view.kind = kind at hkind
  obtain hword | rfl := hkind
  · cases kind <;> first | exact absurd hword (by decide) | rfl
  · rfl

theorem goesOn_word (hkind : s.view.kind.isDeclKeyword = true ∨ s.view.kind = .ident) :
    (s.view.atEnd || endsItems .topLevel s.view) = false := by
  rw [View.atEnd, endsItems]
  generalize s.view.kind = kind at hkind
  obtain hword | rfl := hkind
  · cases kind <;> first | exact absurd hword (by decide) | rfl
  · rfl

/-- An item that is a declaration. -/
theorem run_itemRound_declaration
    (hkind : s.view.kind.isDeclKeyword = true ∨ s.view.kind = .ident)
    (hdeclaration : Lookahead.declaration? .topLevel s.view.lexemes = some k)
    (hrun : (declaration k).run call s = ((), s')) (hlt : s'.left < s.left) :
    (itemRound .topLevel).run call s = (true, s') := by
  have hitem : (item .topLevel).run call s = ((), s') := by
    rw [run_item_word hkind, declarationOrStatement, run_view_bind, hdeclaration]
    exact hrun
  have hlength : (s'.view.lexemes.length == s.view.lexemes.length) = false :=
    beq_false_of_ne (Nat.ne_of_lt hlt)
  rw [itemRound, run_view_bind, run_ite, goesOn_word hkind, if_neg Bool.false_ne_true,
    run_bind_of_run hitem, run_view_bind, hlength]
  rfl

theorem left_itemRound_lt {scope : Scope} (hcall : ∀ r s, State.Leads s (call r s).2)
    (hgo : ((itemRound scope).run call s).1 = true) :
    ((itemRound scope).run call s).2.left < s.left := by
  rw [itemRound, run_view_bind, run_ite] at hgo ⊢
  cases hends : s.view.atEnd || endsItems scope s.view with
  | true =>
    rw [hends] at hgo
    exact absurd hgo Bool.false_ne_true
  | false =>
    have hleads : s.Leads ((item scope).run call s).2 := run_leads hcall (item scope) s
    have hle := hleads.left_le
    rw [if_neg Bool.false_ne_true, run_bind, run_view_bind]
    dsimp only
    cases hsame : ((item scope).run call s).2.view.lexemes.length == s.view.lexemes.length with
    | false => exact Nat.lt_of_le_of_ne hle (ne_of_beq_false hsame)
    | true =>
      -- nothing was consumed, so that recovery finds what the item began with
      obtain ⟨eaten, hlexemes, -, -⟩ := hleads
      have heaten : eaten = [] := by
        have hcount := congrArg List.length hlexemes
        rw [List.length_append, eq_of_beq hsame] at hcount
        exact List.eq_nil_of_length_eq_zero (by omega)
      have hend : ((item scope).run call s).2.view.atEnd = false := by
        rw [heaten, List.nil_append] at hlexemes
        rw [View.atEnd, View.kind_eq, ← hlexemes, ← View.kind_eq]
        exact (Bool.or_eq_false_iff.mp hends).1
      rw [if_pos rfl, run_bind]
      exact Nat.lt_of_lt_of_le (left_recover_lt hcall hend .strayToken) hle

/-- Behind its first item, a file is parsed as if it began there. -/
theorem run_file_of_itemRound {depth : Nat}
    (h : (itemRound .topLevel).run (runRule depth) s = (true, s')) (hlt : s'.left < s.left) :
    file.run (runRule (depth + 1)) s = file.run (runRule (depth + 1)) s' := by
  have hitems : ∀ s, runRule (depth + 1) (.items .topLevel) s =
      (true, ((items .topLevel).run (runRule depth) s).2) := fun s => run_bind _ _ s
  have hrounds : (items .topLevel).run (runRule depth) s =
      (items .topLevel).run (runRule depth) s' := by
    rw [items_eq, run_repeating, run_repeating, roundsOf, h]
    exact congrArg (Prod.mk ()) (roundsOf_congr
      (fun _ => left_itemRound_lt (runRule_leads depth)) hlt (Nat.lt_succ_self _))
  rw [file_eq, run_bind, run_bind, run_follow', run_follow', hitems, hitems, hrounds]

end Runs

/-- A declaration with and without a modifier in front of it: what is built differs by the
    modifier, and nothing else does. -/
theorem exists_run_itemRound_detailed (h : IsDetailed m o a c)
    (hl : l.kind.isDeclKeyword = true) (hplain : Lookahead.atModifier (l :: ls) = false)
    (gap endGap : Gap) :
    ∃ enough, ∀ depth, enough ≤ depth → ∃ (k : NodeKind) (us : List Tree) (s : State),
      us ≠ [] ∧ s.left ≤ ls.length ∧
      (itemRound .topLevel).run (runRule depth) (State.initial (l :: ls) endGap) =
        (true, s.framed [.node k us] []) ∧
      (itemRound .topLevel).run (runRule depth)
          (State.initial (m :: o :: a :: c :: { l with gap } :: ls) endGap) =
        (true, s.framed [.node k (detailedModifier m o a c :: us)] []) := by
  obtain ⟨k, p, hrest, hdeclaration⟩ := exists_declaration hl
  have hat : Lookahead.headKind (l :: ls) ≠ .atSign := by
    intro hat
    rw [show l.kind = .atSign from hat] at hl
    exact absurd hl (by decide)
  have hkind : l.kind ≠ .eof := by
    intro heof
    rw [heof] at hl
    exact absurd hl (by decide)
  obtain ⟨n, hn⟩ := reads_modifiers h ({ l with gap } :: ls) hplain
    ((State.initial (m :: o :: a :: c :: { l with gap } :: ls) endGap).start false)
  refine ⟨n, fun depth hdepth => ?_⟩
  -- what follows the keyword does not see the modifier
  have hrules : ∀ r, Grounded [detailedModifier m o a c] [] (runRule depth r) :=
    grounded_runRule depth
  obtain ⟨hbehind, hbuilt⟩ := grounded_run (ignores_runRule_reports depth) hrules p
    (behindKeyword (State.initial (l :: ls) endGap) l ls []) (List.cons_ne_nil _ _)
  generalize hu : (p.run (runRule depth)
    (behindKeyword (State.initial (l :: ls) endGap) l ls [])).2 = u at hbehind hbuilt
  have hleft : u.left ≤ ls.length := hu ▸ (run_leads (runRule_leads depth) p _).left_le
  have hbare : (declaration k).run (runRule depth) (State.initial (l :: ls) endGap) =
      ((), ({ u with built := [] } : State).framed [.node k u.built.reverse] []) := by
    rw [run_declaration_of_front (s := State.initial (l :: ls) endGap) [] hkind hrest
      (run_attributes_none hat) (run_modifiers_none hplain)]
    simp [State.finish, State.framed, State.initial, ← hu]
  have hmodified : (declaration k).run (runRule depth)
      (State.initial (m :: o :: a :: c :: { l with gap } :: ls) endGap) =
      ((), ({ u with built := [] } : State).framed
        [.node k (detailedModifier m o a c :: u.built.reverse)] []) := by
    rw [run_declaration_of_front (l := { l with gap }) [detailedModifier m o a c] hkind hrest
      (run_attributes_none (by simp [Lookahead.headKind, State.initial, State.start, h.word]))
      (hn depth hdepth)]
    have hstart : behindKeyword (State.initial (m :: o :: a :: c :: { l with gap } :: ls) endGap)
        { l with gap } ls [detailedModifier m o a c] =
        (behindKeyword (State.initial (l :: ls) endGap) l ls []).framed
          [detailedModifier m o a c] [] := rfl
    rw [hstart, hbehind]
    simp [State.finish, State.framed, State.initial]
  refine ⟨k, u.built.reverse, { u with built := [] }, by simpa using hbuilt, hleft, ?_, ?_⟩
  · exact run_itemRound_declaration (.inl hl) (hdeclaration rfl hplain) hbare
      (Nat.lt_succ_of_le hleft)
  · refine run_itemRound_declaration (.inr h.word) ?_ hmodified
      (Nat.lt_of_le_of_lt hleft (by simp only [State.left, State.initial, List.length_cons]; omega))
    exact (h.declaration?_eq ({ l with gap } :: ls) hat hplain _).trans (hdeclaration rfl hplain)

/-- In front of a declaration, a modifier with a name in parentheses becomes its first child, and
    everything else is parsed as without it. -/
theorem exists_parseLexemes_detailed (h : IsDetailed m o a c)
    (hl : l.kind.isDeclKeyword = true) (hplain : Lookahead.atModifier (l :: ls) = false)
    (gap endGap : Gap) :
    ∃ (k : NodeKind) (us : List Tree) (s : State), us ≠ [] ∧
      parseLexemes (l :: ls) endGap = s.framed [.node k us] [] ∧
      parseLexemes (m :: o :: a :: c :: { l with gap } :: ls) endGap =
        s.framed [.node k (detailedModifier m o a c :: us)] [] := by
  obtain ⟨n, hn⟩ := exists_run_itemRound_detailed h hl hplain gap endGap
  obtain ⟨t, -, -, hbare⟩ := exists_proceeds_file (l :: ls) endGap
  obtain ⟨t', -, -, hmodified⟩ :=
    exists_proceeds_file (m :: o :: a :: c :: { l with gap } :: ls) endGap
  -- a depth at which the first item is read as above, and both texts to their ends
  obtain ⟨depth, hdepth, hle⟩ : ∃ depth, n ≤ depth ∧
      depthBound (m :: o :: a :: c :: { l with gap } :: ls).length ≤ depth :=
    ⟨max n _, le_max_left _ _, le_max_right _ _⟩
  have hbound : depthBound (l :: ls).length ≤ depth :=
    Nat.le_trans (by simp only [depthBound, List.length_cons]; omega) hle
  obtain ⟨k, us, s, hne, hleft, hround, hround'⟩ := hn depth hdepth
  refine ⟨k, us, (file.run (runRule (depth + 1)) s).2, hne, ?_, ?_⟩
  · have hfile := run_file_of_itemRound hround (Nat.lt_succ_of_le hleft)
    rw [ignores_run_file (depth + 1) s, hbare _ (Nat.le_succ_of_le hbound)] at hfile
    rw [parseLexemes, hbare _ (Nat.le_refl _), hfile]
  · have hfile := run_file_of_itemRound hround'
      (Nat.lt_of_le_of_lt hleft (by simp only [State.left, State.initial, List.length_cons]; omega))
    rw [ignores_run_file (depth + 1) s, hmodified _ (Nat.le_succ_of_le hle)] at hfile
    rw [parseLexemes, hmodified _ (Nat.le_refl _), hfile]

end Grammar

/-! ## Texts -/

open Lexer (tokensOf)

/-- The tree of a modifier with a name in parentheses, of the texts of both. -/
def modifierTree (m a : String) : Tree :=
  Grammar.detailedModifier ⟨.ident, m, .none⟩ ⟨.lParen, "(", .none⟩ ⟨.ident, a, .none⟩
    ⟨.rParen, ")", .none⟩

section Modified

variable {m a d : String} {t : Token} {ts : List Token}

theorem Lookahead.lex_of_mem_modifierWords (hm : m ∈ Lookahead.modifierWords) :
    lex m = [⟨.ident, m⟩] := by
  have hall : ∀ m ∈ Lookahead.modifierWords, lex m = [⟨.ident, m⟩] :=
    Lexer.forall_mem_of_all (by decide +kernel)
  exact hall m hm

/-- The tokens of a text with a modifier on a line in front of it. -/
theorem lex_modified (hm : lex m = [⟨.ident, m⟩]) (ha : lex a = [⟨.ident, a⟩])
    (hd : lex d = t :: ts) (ht : t.isTrivia = false) :
    lex (m ++ "(" ++ a ++ ")\n" ++ d) =
      (modifierTree m a).leaves ++ ⟨.whitespace, "\n"⟩ :: t :: ts := by
  have htext : (m ++ "(" ++ a ++ ")\n" ++ d).toList =
      m.toList ++ '(' :: (a.toList ++ ')' :: '\n' :: d.toList) := by simp
  have hblank : ∀ c ∈ d.toList.head?, Lexer.isBlank c = false := by
    refine TypeShape.isBlank_of_head? fun x hx => ?_
    rw [← Lexer.lex_eq_tokensOf, hd] at hx
    obtain rfl := Option.some.inj hx
    exact ht
  rw [Lexer.lex_eq_tokensOf, htext, TypeShape.tokensOf_ident hm (by simp; decide),
    TypeShape.tokensOf_lParen, TypeShape.tokensOf_ident ha (by simp; decide),
    TypeShape.tokensOf_rParen, Lexer.tokensOf_blankChar (by decide) hblank,
    ← Lexer.lex_eq_tokensOf, hd]
  rfl

theorem snug_modifierTree (m a : String) : (modifierTree m a).Snug :=
  .node (.node (.leaf rfl) (.cons (.node (.leaf rfl) (.cons (.leaf rfl) (.cons (.leaf rfl) .nil)))
    .nil)) .nil

theorem withoutTrivia_modifierTree (m a : String) :
    (modifierTree m a).withoutTrivia = modifierTree m a := rfl

/-- The trees of a text whose first item is a declaration, with and without a modifier on a line in
    front of it. -/
theorem exists_finalState_modified (hm : m ∈ Lookahead.modifierWords) (ht : t.isTrivia = false)
    (hword : t.kind.isDeclKeyword = true)
    (hplain : Lookahead.atModifier (Lexeme.ofTokens (t :: ts)).1 = false) :
    ∃ (k : NodeKind) (us : List Tree) (s : State), us ≠ [] ∧
      finalState (t :: ts) = s.framed [.node k us] [] ∧
      finalState ((modifierTree m a).leaves ++ ⟨.whitespace, "\n"⟩ :: t :: ts) =
        s.framed [.node k (modifierTree m a :: us)] [] := by
  have hlexemes : ∀ gap, Lexeme.ofTokensAfter gap (t :: ts) = _ :=
    fun gap => Lexeme.ofTokensAfter_cons ht gap t.text ts
  rw [Lexeme.ofTokens, hlexemes] at hplain
  obtain ⟨k, us, s, hne, hbare, hmodified⟩ := Grammar.exists_parseLexemes_detailed
    (m := ⟨.ident, m, .none⟩) (o := ⟨.lParen, "(", .none⟩) (a := ⟨.ident, a, .none⟩)
    (c := ⟨.rParen, ")", .none⟩) ⟨rfl, hm, rfl, rfl, rfl⟩ hword hplain
    (Gap.none.extend ⟨.whitespace, "\n"⟩) (Lexeme.ofTokensAfter .none ts).2
  refine ⟨k, us, s, hne, ?_, ?_⟩
  · rw [finalState, Lexeme.ofTokens, hlexemes]
    exact hbare
  · have hall : Lexeme.ofTokens ((modifierTree m a).leaves ++ ⟨.whitespace, "\n"⟩ :: t :: ts) =
        (⟨.ident, m, .none⟩ :: ⟨.lParen, "(", .none⟩ :: ⟨.ident, a, .none⟩ ::
          ⟨.rParen, ")", .none⟩ :: ⟨t.kind, t.text, Gap.none.extend ⟨.whitespace, "\n"⟩⟩ ::
          (Lexeme.ofTokensAfter .none ts).1, (Lexeme.ofTokensAfter .none ts).2) := by
      have hline : Lexeme.ofTokensAfter .none (⟨.whitespace, "\n"⟩ :: t :: ts) =
          Lexeme.ofTokensAfter (Gap.none.extend ⟨.whitespace, "\n"⟩) (t :: ts) := rfl
      show Lexeme.ofTokensAfter .none (⟨.ident, m⟩ :: ⟨.lParen, "("⟩ :: ⟨.ident, a⟩ ::
        ⟨.rParen, ")"⟩ :: ⟨.whitespace, "\n"⟩ :: t :: ts) = _
      rw [Lexeme.ofTokensAfter_cons rfl, Lexeme.ofTokensAfter_cons rfl,
        Lexeme.ofTokensAfter_cons rfl, Lexeme.ofTokensAfter_cons rfl, hline, hlexemes]
    rw [finalState, hall]
    exact hmodified

namespace Tree

variable {k : NodeKind} {us : List Tree}

/-- A node with the first token of a text is the first child of the root. -/
theorem rootWithTrivia_node {more : List Token} (hmore : more = t :: ts) (ht : t.isTrivia = false)
    (k : NodeKind) (us vs : List Tree) :
    rootWithTrivia (.node k us :: vs) more =
      .node .sourceFile (.node k (weaveForest us more).1 ::
        (rootWithTrivia vs (weaveForest us more).2).children) := by
  rw [rootWithTrivia, rootWithTrivia, weaveForest_cons hmore ht, weave]
  rfl

theorem leaves_modifierTree_append (m a : String) (ts : List Token) :
    (modifierTree m a).leaves ++ ts = ⟨.ident, m⟩ :: ((modifierTree m a).leaves.tail ++ ts) := rfl

/-- A modifier on a line of its own stands ahead of what a node consists of. -/
theorem weaveForest_modified (m a : String) (hne : us ≠ []) (ts : List Token) :
    weaveForest (modifierTree m a :: us)
        ((modifierTree m a).leaves ++ ⟨.whitespace, "\n"⟩ :: ts) =
      (modifierTree m a :: .leaf ⟨.whitespace, "\n"⟩ :: (weaveForest us ts).1,
        (weaveForest us ts).2) := by
  have hweave := (snug_modifierTree m a).weave_eq _ (⟨.whitespace, "\n"⟩ :: ts)
  rw [withoutTrivia_modifierTree] at hweave
  rw [weaveForest_cons (leaves_modifierTree_append m a _) rfl, hweave, weaveForest_trivia rfl hne]
  rfl

end Tree

/-- A word that modifies declarations, with a name in parentheses behind it, is never a call when a
    declaration comes next: be it on a line of its own, and whatever the name, it becomes the first
    child of the declaration. Neither the rest of the tree nor what is reported changes. -/
theorem parse_modified (hm : m ∈ Lookahead.modifierWords) (ha : lex a = [⟨.ident, a⟩])
    (hd : (lex d).head?.any (·.kind.isDeclKeyword) = true)
    (hplain : Lookahead.atModifier (Lexeme.ofTokens (lex d)).1 = false) :
    ∃ (k : NodeKind) (cs rest : List Tree),
      (parse d).tree = .node .sourceFile (.node k cs :: rest) ∧
      (parse (m ++ "(" ++ a ++ ")\n" ++ d)).tree =
        .node .sourceFile
          (.node k (modifierTree m a :: .leaf ⟨.whitespace, "\n"⟩ :: cs) :: rest) ∧
      (parse (m ++ "(" ++ a ++ ")\n" ++ d)).diagnostics.map Diagnostic.problem =
        (parse d).diagnostics.map Diagnostic.problem := by
  cases hlex : lex d with
  | nil =>
    rw [hlex] at hd
    exact absurd hd Bool.false_ne_true
  | cons t ts =>
    rw [hlex] at hd hplain
    have ht : t.isTrivia = false := TokenKind.isTrivia_of_isDeclKeyword hd
    have hmodified := lex_modified (Lookahead.lex_of_mem_modifierWords hm) ha hlex ht
    obtain ⟨k, us, s, hne, hbare, hfront⟩ :=
      exists_finalState_modified (a := a) hm ht hd hplain
    have htree : ∀ u : Tree, (s.framed [u] []).built.reverse = u :: s.built.reverse := fun u => by
      simp [State.framed]
    refine ⟨k, (Tree.weaveForest us (t :: ts)).1,
      (Tree.rootWithTrivia s.built.reverse (Tree.weaveForest us (t :: ts)).2).children, ?_, ?_, ?_⟩
    · rw [parse, tree_parseTokens, hlex, hbare, htree, Tree.rootWithTrivia_node rfl ht]
    · rw [parse, hmodified, tree_parseTokens, hfront, htree,
        Tree.rootWithTrivia_node (Tree.leaves_modifierTree_append m a _) rfl,
        Tree.weaveForest_modified m a hne]
    · rw [parse, parse, hmodified, hlex, diagnostics_parseTokens, diagnostics_parseTokens, hbare,
        hfront, Report.locateAll_eq, Report.locateAll_eq, List.map_map, List.map_map]
      rfl

/-- `open(file)` is no call when a function is declared on the next line. -/
theorem parse_modified_open :
    "open" ∈ Lookahead.modifierWords ∧ lex "file" = [⟨.ident, "file"⟩] ∧
      ∃ (k : NodeKind) (cs rest : List Tree),
        (parse "func f() {}").tree = .node .sourceFile (.node k cs :: rest) ∧
        (parse ("open" ++ "(" ++ "file" ++ ")\n" ++ "func f() {}")).tree =
          .node .sourceFile
            (.node k (modifierTree "open" "file" :: .leaf ⟨.whitespace, "\n"⟩ :: cs) :: rest) ∧
        (parse ("open" ++ "(" ++ "file" ++ ")\n" ++ "func f() {}")).diagnostics.map
            Diagnostic.problem =
          (parse "func f() {}").diagnostics.map Diagnostic.problem :=
  ⟨by decide, by decide +kernel,
    parse_modified (by decide) (by decide +kernel) (by decide +kernel) (by decide +kernel)⟩

/-- So the file has one item, and a modifier in it, where a call and a function were written. -/
theorem children_modified_open :
    (parse "func f() {}").ok = true ∧
      (parse "func f() {}").tree.children.map Tree.nodeKind? = [some .functionDecl] ∧
      (parse "open(file)\nfunc f() {}").tree.children.map Tree.nodeKind? =
        [some .functionDecl] := by
  decide +kernel

end Modified

end SwiftOutline
