/-
  SwiftOutline.Proofs.Outline.Effects

  Effect specifiers. In a text without problems a node of effect specifiers is a
  sequence of them in any order, and behind it no further one stands. What is read
  from it is the last specifier of `async` and the last of `throws`, wherever they
  stand, so the order between the two does not matter.
-/
import SwiftOutline.Proofs.Filled.Item
import SwiftOutline.Proofs.Parser.Placed
import SwiftOutline.Proofs.Token.Literal
import SwiftOutline.Proofs.Token.Spelling
import SwiftOutline.Proofs.Tree.Filled
import SwiftOutline.Proofs.Tree.Parts
import SwiftOutline.Proofs.TypeExpr.Layers

namespace SwiftOutline

/-! ## Specifiers -/

/-- A tree that is a type. -/
abbrev TypeTree := {t : Tree // t.isType = true}

theorem TypeTree.exists_node (t : TypeTree) : ∃ k children, t.val = .node k children := by
  obtain ⟨t, ht⟩ := t
  cases t with
  | leaf b => exact absurd ht Bool.false_ne_true
  | node k children => exact ⟨k, children, rfl⟩

/-- An effect specifier. The type of what is thrown may stand behind it in parentheses. -/
inductive Specifier where
  | async
  | reasync
  | throws (type : Option TypeTree)
  | rethrows (type : Option TypeTree)

namespace Specifier

/-- The type of what is thrown. -/
def thrownTrees : Option TypeTree → List Tree
  | none => []
  | some t => [.leaf ⟨.lParen, "("⟩, t.val, .leaf ⟨.rParen, ")"⟩]

/-- What a specifier is made of. -/
def trees : Specifier → List Tree
  | async => [.leaf ⟨.ident, "async"⟩]
  | reasync => [.leaf ⟨.ident, "reasync"⟩]
  | throws type => .leaf ⟨.kwThrows, "throws"⟩ :: thrownTrees type
  | rethrows type => .leaf ⟨.kwRethrows, "rethrows"⟩ :: thrownTrees type

/-- The text of what is thrown. -/
def thrownText : Option TypeTree → String
  | none => ""
  | some t => "(" ++ t.val.text ++ ")"

/-- `throws` with the name of what is thrown. -/
def throwing (name : String) : Specifier :=
  throws (some ⟨.node .simpleType [.leaf ⟨.ident, name⟩], rfl⟩)

/-- The word of a specifier for asynchronous functions. -/
def async? : Specifier → Option String
  | async => some "async"
  | reasync => some "reasync"
  | throws _ | rethrows _ => none

/-- The text of a specifier for functions that throw. -/
def throws? : Specifier → Option String
  | async | reasync => none
  | throws type => some ("throws" ++ thrownText type)
  | rethrows type => some ("rethrows" ++ thrownText type)

/-- No tree of a specifier is trivia. -/
theorem filter_trees (x : Specifier) : x.trees.filter (fun t => !t.isTriviaLeaf) = x.trees := by
  have hthrown (type : Option TypeTree) :
      (thrownTrees type).filter (fun t => !t.isTriviaLeaf) = thrownTrees type := by
    cases type with
    | none => rfl
    | some t =>
      obtain ⟨k, children, htree⟩ := t.exists_node
      rw [thrownTrees, htree]
      rfl
  cases x with
  | async => rfl
  | reasync => rfl
  | throws type => exact (List.filter_cons_of_pos rfl).trans (congrArg _ (hthrown type))
  | rethrows type => exact (List.filter_cons_of_pos rfl).trans (congrArg _ (hthrown type))

end Specifier

/-- Whether the lexeme has the text of its kind, if it is of a kind that effect specifiers are made
    of. -/
def Lexeme.IsSpelled (l : Lexeme) : Prop :=
  ∀ t ∈ ([⟨.kwThrows, "throws"⟩, ⟨.kwRethrows, "rethrows"⟩, ⟨.lParen, "("⟩, ⟨.rParen, ")"⟩] :
    List Token), l.kind = t.kind → l.token = t

namespace State

variable {s t u : State} {l : Lexeme} {ls : List Lexeme}

theorem consume_of_lexemes (h : s.view.lexemes = l :: ls) (hl : l.kind ≠ .eof) :
    s.consume.view.lexemes = ls ∧ s.consume.built = .leaf l.token :: s.built := by
  rw [consume, h]
  simp [hl]

/-- Specifiers have been built, unless a problem has been reported. -/
structure Specifies (s t : State) : Prop where
  reaches : s.Reaches t
  added : t.reports = [] →
    ∃ es : List Specifier, t.built.reverse = s.built.reverse ++ es.flatMap Specifier.trees

theorem Specifies.refl (s : State) : s.Specifies s :=
  ⟨.refl s, fun _ => ⟨[], (List.append_nil _).symm⟩⟩

theorem Specifies.trans (h : s.Specifies t) (h' : t.Specifies u) : s.Specifies u := by
  refine ⟨h.reaches.trans h'.reaches, fun hreports => ?_⟩
  obtain ⟨es, ht⟩ := h.added (h'.reaches.reports_eq_nil hreports)
  obtain ⟨es', hu⟩ := h'.added hreports
  exact ⟨es ++ es', by rw [hu, ht, List.flatMap_append, List.append_assoc]⟩

end State

namespace Grammar

open SwiftOutline.Parser SwiftOutline.State SwiftOutline.Specifier

variable {G : Outcomes} {s : State}

/-- What is known of the rule for types where specifiers are parsed. -/
def TypesAdded (G : Outcomes) : Prop :=
  ∀ s b t, G .type s b t → s.Reaches t ∧ s.AddsType b t

theorem exists_lexemes {k : TokenKind} (h : s.view.kind = k) (hk : k ≠ .eof) :
    ∃ l rest, s.view.lexemes = l :: rest ∧ l.kind = k := by
  cases hls : s.view.lexemes with
  | nil => exact absurd (by simpa [View.kind, View.kindAt, hls] using h.symm) hk
  | cons l rest => exact ⟨l, rest, rfl, by simpa [View.kind, View.kindAt, hls] using h⟩

/-- The word of a specifier for functions that throw. -/
theorem exists_throws {l : Lexeme} {rest : List Lexeme} (hl : l.IsSpelled)
    (h : Lookahead.atThrows (l :: rest) = true) : ∃ throws : Option TypeTree → Specifier,
      ∀ type, (throws type).trees = .leaf l.token :: thrownTrees type := by
  have hkind : l.kind = .kwThrows ∨ l.kind = .kwRethrows := by
    simpa [Lookahead.atThrows, Lookahead.headKind] using h
  rcases hkind with hk | hk
  · exact ⟨.throws, fun type => by rw [hl ⟨.kwThrows, "throws"⟩ (by simp) hk]; rfl⟩
  · exact ⟨.rethrows, fun type => by rw [hl ⟨.kwRethrows, "rethrows"⟩ (by simp) hk]; rfl⟩

/-- The word of another specifier. -/
theorem exists_async {l : Lexeme} {rest : List Lexeme} (h : Lookahead.atEffect (l :: rest) = true)
    (hthrows : Lookahead.atThrows (l :: rest) = false) :
    ∃ x : Specifier, x.trees = [.leaf l.token] := by
  have hword : (l.kind = .ident ∧ l.text = "async") ∨ (l.kind = .ident ∧ l.text = "reasync") := by
    simpa [Lookahead.atEffect, hthrows, Lookahead.spells] using h
  rcases hword with ⟨hk, htext⟩ | ⟨hk, htext⟩
  · exact ⟨.async, by rw [Lexeme.token, hk, htext]; rfl⟩
  · exact ⟨.reasync, by rw [Lexeme.token, hk, htext]; rfl⟩

/-- The type of what is thrown is put between its parentheses. -/
theorem wlp_thrown (hG : TypesAdded G) (hspelled : ∀ l ∈ s.view.lexemes, l.IsSpelled)
    (hopen : s.view.kind = .lParen) :
    wlp G (do bump; follow' .type; require .rParen .openThrownType; pure true)
      (fun b t => b = true ∧ s.Reaches t ∧ (t.reports = [] → ∃ x : TypeTree,
        t.built.reverse = s.built.reverse ++ thrownTrees (some x))) s := by
  obtain ⟨o, rest, hlexemes, ho⟩ := exists_lexemes hopen (by decide)
  obtain ⟨-, hbuilt⟩ := consume_of_lexemes hlexemes (by rw [ho]; decide)
  refine wlp_bind (wlp_bump (wlp_bind (wlp_follow' fun b t ht => ?_)))
  obtain ⟨htype, hadds⟩ := hG s.consume b t ht
  have hreaches : s.Reaches t := s.reaches_consume.trans htype
  by_cases hclose : t.view.kind = .rParen
  · refine wlp_bind (wlp_require hclose ?_)
    refine ⟨rfl, hreaches.trans t.reaches_consume, fun hreports => ?_⟩
    -- as nothing has been reported, there is a type
    obtain ⟨-, x, hx, htop⟩ := hadds.resolve_right fun h =>
      h.2 (t.reaches_consume.reports_eq_nil hreports)
    obtain ⟨c, more, hmore, hc⟩ := exists_lexemes hclose (by decide)
    have hmem : c ∈ s.view.lexemes := hreaches.suffix.subset (hmore ▸ List.mem_cons_self)
    have hopened : o.token = ⟨.lParen, "("⟩ :=
      hspelled o (hlexemes ▸ List.mem_cons_self) _ (by simp) ho
    have hclosed : c.token = ⟨.rParen, ")"⟩ := hspelled c hmem _ (by simp) hc
    refine ⟨⟨x, hx⟩, ?_⟩
    rw [(consume_of_lexemes hmore (by rw [hc]; decide)).2, htop, hbuilt, hopened, hclosed]
    simp [thrownTrees]
  · refine wlp_bind (wlp_require_not hclose ?_)
    exact ⟨rfl, hreaches.trans (t.reaches_complain _), fun h => absurd h (List.cons_ne_nil _ _)⟩

/-- One round adds a specifier, or there is none. -/
theorem wlp_effectRound (hG : TypesAdded G) (hspelled : ∀ l ∈ s.view.lexemes, l.IsSpelled) :
    wlp G effectRound (fun b t => s.Specifies t ∧
      (b = false → Lookahead.atEffect t.view.lexemes = false)) s := by
  refine wlp_view_bind ?_
  dsimp only
  split
  case isFalse h => exact ⟨.refl s, fun _ => by simpa using h⟩
  case isTrue h =>
    obtain ⟨l, rest, hlexemes⟩ : ∃ l rest, s.view.lexemes = l :: rest := by
      cases hls : s.view.lexemes with
      | nil => rw [hls] at h; cases h
      | cons l rest => exact ⟨l, rest, rfl⟩
    have hl := hspelled l (hlexemes ▸ List.mem_cons_self)
    rw [hlexemes] at h ⊢
    have hend : l.kind ≠ .eof := by
      intro hk
      simp [Lookahead.atEffect, Lookahead.atThrows, Lookahead.headKind, Lookahead.spells, hk] at h
    obtain ⟨hleft, hbuilt⟩ := consume_of_lexemes hlexemes hend
    have single {t : State} {b : Bool} (hb : b = true) (ht : s.Reaches t) (hx : t.reports = [] →
        ∃ x : Specifier, t.built.reverse = s.built.reverse ++ x.trees) :
        s.Specifies t ∧ (b = false → Lookahead.atEffect t.view.lexemes = false) := by
      refine ⟨⟨ht, fun hreports => ?_⟩, fun hfalse => absurd (hb.symm.trans hfalse) (by decide)⟩
      obtain ⟨x, hx⟩ := hx hreports
      exact ⟨[x], by rw [hx, List.flatMap_singleton]⟩
    show wlp G (if Lookahead.atThrows (l :: rest) then _ else _) _ s.consume
    split
    case isFalse hthrows =>
      obtain ⟨x, hx⟩ := exists_async h (by simpa using hthrows)
      exact single rfl s.reaches_consume fun _ => ⟨x, by rw [hbuilt, hx, List.reverse_cons]⟩
    case isTrue hthrows =>
      obtain ⟨throws, htrees⟩ := exists_throws hl hthrows
      refine wlp_seesJoined_bind ?_
      split
      case isFalse =>
        refine single rfl s.reaches_consume fun _ => ⟨throws none, ?_⟩
        rw [hbuilt, htrees, List.reverse_cons]
        rfl
      case isTrue hjoined =>
        have hopen : s.consume.view.kind = .lParen := by
          rw [View.seesJoined, Bool.and_eq_true] at hjoined
          exact eq_of_beq hjoined.1
        have hmore : ∀ l ∈ s.consume.view.lexemes, l.IsSpelled := fun l hl =>
          hspelled l (s.reaches_consume.suffix.subset hl)
        refine wlp_mono (fun b t ht => ?_) (wlp_thrown hG hmore hopen)
        obtain ⟨hb, hreaches, hthrown⟩ := ht
        refine single hb (s.reaches_consume.trans hreaches) fun hreports => ?_
        obtain ⟨x, hx⟩ := hthrown hreports
        refine ⟨throws (some x), ?_⟩
        rw [hx, hbuilt, htrees, List.reverse_cons, List.append_assoc]
        rfl

/-! ## Nodes -/

/-- What is known of nodes of effect specifiers when `ls` is parsed: they are made of specifiers,
    and none stands behind them. -/
def Specified (ls : List Lexeme) (k : NodeKind) (children : List Tree) (behind : Nat) : Prop :=
  k = .effectSpecifiers → (∃ es : List Specifier, children = es.flatMap Specifier.trees) ∧
    Lookahead.atEffect (ls.drop (ls.length - behind)) = false

/-- What is known of the rules. -/
def Specifying (ls : List Lexeme) : Outcomes := fun r s b t =>
  s.KeepsPlaced (Specified ls) ls t ∧ (r = .type → s.AddsType b t)

theorem typesAdded_specifying (ls : List Lexeme) : TypesAdded (Specifying ls) :=
  fun _ _ _ h => ⟨h.1.reaches, h.2 rfl⟩

variable {ls : List Lexeme}

/-- The rounds end where no further specifier stands. -/
theorem wlp_specifiers (hG : TypesAdded G) (hls : ∀ l ∈ ls, l.IsSpelled) (s : State) :
    wlp G (repeating effectRound) (fun _ t => s.view.lexemes <:+ ls → t.reports = [] →
      Specified ls .effectSpecifiers t.built.reverse t.left) (s.start false) := by
  by_cases hs : s.view.lexemes <:+ ls
  case neg => exact wlp_of_forall (fun _ _ h => absurd h hs) _
  refine wlp_mono (fun _ t ht _ hreports _ => ?_) (wlp_repeating
    (I := fun t => (s.start false).Specifies t)
    (Q := fun t => (s.start false).Specifies t ∧ Lookahead.atEffect t.view.lexemes = false)
    (.refl _) fun t ht => ?_)
  · obtain ⟨hspecifies, hend⟩ := ht
    have hsuffix : t.view.lexemes <:+ ls := hspecifies.reaches.suffix.trans hs
    refine ⟨hspecifies.added hreports, ?_⟩
    rwa [left, ← List.suffix_iff_eq_drop.mp hsuffix]
  · have hspelled : ∀ l ∈ t.view.lexemes, l.IsSpelled := fun l hl =>
      hls l ((ht.reaches.suffix.trans hs).subset hl)
    refine wlp_mono (fun b u hu => ?_) (wlp_effectRound hG hspelled)
    cases b with
    | true => exact ht.trans hu.1
    | false => exact ⟨ht.trans hu.1, hu.2 rfl⟩

/-- Everything is admitted but nodes of effect specifiers that are made of something else. -/
def specifiedForms (ls : List Lexeme) : Forms where
  node adopt k p := k = .effectSpecifiers → (∀ l ∈ ls, l.IsSpelled) → adopt = false ∧
    ∀ s : State, wlp (Specifying ls) p (fun _ t => s.view.lexemes <:+ ls → t.reports = [] →
      Specified ls k t.built.reverse t.left) (s.start false)
  rule _ := True

instance : HasItems (specifiedForms ls) where
  node h hk := by subst hk; exact absurd h (by decide)
  argument _ hk := nomatch hk
  name _ hk := nomatch hk
  specifiers _ hls :=
    ⟨rfl, fun s => wlp_bind (wlp_specifiers (typesAdded_specifying ls) hls s)⟩
  rule _ := trivial
  item h hk := by subst hk; exact absurd h (by decide)
  cases := trivial

instance : HasTypes (specifiedForms ls) where
  type h hk := by subst hk; exact absurd h (by decide)

instance : Adopts (specifiedForms ls) := ⟨trivial⟩

instance : HasBlocks (specifiedForms ls) where
  block hk := nomatch hk

/-- What all rules do to the nodes of effect specifiers. -/
def keepingSpecified (ls : List Lexeme) : Kept :=
  keepingPlaced (Specified ls) ls (· ≠ .effectSpecifiers) fun _ _ _ hk h => absurd h hk

theorem permits_specifiedForms (hls : ∀ l ∈ ls, l.IsSpelled) :
    (keepingSpecified ls).Permits (Specifying ls) (specifiedForms ls) where
  node {_ adopt k body s} hnode hbody := by
    by_cases hk : k = .effectSpecifiers
    · obtain ⟨rfl, hspecified⟩ := hnode hk hls
      refine wlp_mono (fun _ t ht => ?_) (wlp_and hbody (hspecified s))
      exact ht.1.finish fun k' hk' hreports hs => Option.some.inj hk' ▸ ht.2 hs hreports
    · exact wlp_mono (fun _ t ht => (keepingSpecified ls).finish ht fun k' hk' =>
        Option.some.inj hk' ▸ hk) hbody
  rule _ _ _ _ h := h.1

theorem wlp_body_specifying (hls : ∀ l ∈ ls, l.IsSpelled) (r : Rule) (s : State) :
    wlp (Specifying ls) (body r) (Specifying ls r s) s := by
  have hkeeps := (permits_specifiedForms hls).keeps (P := fun _ => True) (makes_body r) s
  by_cases hr : r = .type
  · subst hr
    exact wlp_mono (fun _ _ ht => ⟨ht.1.1, fun _ => ht.2⟩) (wlp_and hkeeps (wlp_typeExpr s))
  · exact wlp_mono (fun _ _ ht => ⟨ht.1, fun h => absurd h hr⟩) hkeeps

theorem keepsPlaced_parseLexemes {endGap : Gap} (hls : ∀ l ∈ ls, l.IsSpelled) :
    (State.initial ls endGap).KeepsPlaced (Specified ls) ls (parseLexemes ls endGap) := by
  obtain ⟨t, -, hproceeds, hrun⟩ := exists_proceeds_file ls endGap
  have hfinal : parseLexemes ls endGap = t := by
    rw [parseLexemes, hrun _ (Nat.le_refl _)]
  rw [hfinal]
  have hfile := (permits_specifiedForms hls).keeps (P := fun _ => True) (p := file) (by simp)
    (State.initial ls endGap)
  exact (hproceeds.of_wlp (wlp_body_specifying hls) hfile).1

/-- Where no problem is found, all nodes of effect specifiers are as they should be. -/
theorem placed_parseLexemes {endGap : Gap} (hls : ∀ l ∈ ls, l.IsSpelled)
    (h : (parseLexemes ls endGap).reports = []) : (parseLexemes ls endGap).Placed (Specified ls) :=
  (keepsPlaced_parseLexemes hls).placed h (List.suffix_refl ls) ⟨trivial⟩

end Grammar

/-! ## Texts -/

/-- Whether the token is an effect specifier. -/
def Token.isEffect (t : Token) : Bool :=
  t.kind == .kwThrows || t.kind == .kwRethrows ||
    t.kind == .ident && (t.text == "async" || t.text == "reasync")

theorem Lexeme.isSpelled_of_mem {source : String} {l : Lexeme}
    (h : l ∈ (ofTokens (lex source)).1) : l.IsSpelled := by
  have hlex : l.token ∈ lex source := by
    have hmem := List.mem_map_of_mem (f := token) h
    rw [map_token_ofTokens] at hmem
    exact (List.mem_filter.mp hmem).1
  have htoken {t : Token} (hk : l.kind = t.kind) (htext : l.token.text = t.text) : l.token = t := by
    cases t
    exact congrArg₂ Token.mk hk htext
  intro t ht hk
  simp only [List.mem_cons, List.not_mem_nil, or_false] at ht
  rcases ht with rfl | rfl | rfl | rfl
  · exact htoken hk (text_of_mem_lex hlex (by rw [show l.token.kind = _ from hk]; rfl))
  · exact htoken hk (text_of_mem_lex hlex (by rw [show l.token.kind = _ from hk]; rfl))
  · exact htoken hk (text_of_bracket (c := '(') hlex (by decide) hk)
  · exact htoken hk (text_of_bracket (c := ')') hlex (by decide) hk)

theorem Lookahead.atEffect_eq (ls : List Lexeme) :
    Lookahead.atEffect ls = ((ls.map Lexeme.token).head?.any Token.isEffect) := by
  cases ls with
  | nil => rfl
  | cons l ls =>
    simp [atEffect, atThrows, headKind, spells, Token.isEffect, Lexeme.token,
      Bool.and_or_distrib_left, Bool.or_assoc]

namespace Tree

/-- Trivia inside of trees do not matter to whether they are a type between parentheses. -/
theorem exists_thrownTrees_of_withoutTrivia {us : List Tree} {type : Option TypeTree}
    (h : us.map withoutTrivia = Specifier.thrownTrees type) :
    ∃ type', us = Specifier.thrownTrees type' := by
  cases type with
  | none => exact ⟨none, List.map_eq_nil_iff.mp h⟩
  | some t =>
    obtain ⟨o, us, rfl, ho, h⟩ := List.map_eq_cons_iff.mp h
    obtain ⟨u, us, rfl, hu, h⟩ := List.map_eq_cons_iff.mp h
    obtain ⟨c, us, rfl, hc, h⟩ := List.map_eq_cons_iff.mp h
    obtain rfl := List.map_eq_nil_iff.mp h
    obtain rfl := eq_leaf_of_withoutTrivia ho
    obtain rfl := eq_leaf_of_withoutTrivia hc
    refine ⟨some ⟨u, ?_⟩, rfl⟩
    rw [isType, ← nodeKind?_withoutTrivia, hu]
    exact t.property

/-- Nor do they matter to whether trees are those of a specifier. -/
theorem exists_trees_of_withoutTrivia {us : List Tree} {x : Specifier}
    (h : us.map withoutTrivia = x.trees) : ∃ x' : Specifier, us = x'.trees := by
  obtain ⟨b, rest, htrees⟩ : ∃ b rest, x.trees = .leaf b :: rest := by cases x <;> exact ⟨_, _, rfl⟩
  obtain ⟨u, us, rfl, hu, hrest⟩ := List.map_eq_cons_iff.mp (h.trans htrees)
  obtain rfl := eq_leaf_of_withoutTrivia hu
  cases x with
  | async =>
    obtain ⟨⟨⟩, rfl⟩ := List.cons.inj htrees
    exact ⟨.async, by rw [List.map_eq_nil_iff.mp hrest]; rfl⟩
  | reasync =>
    obtain ⟨⟨⟩, rfl⟩ := List.cons.inj htrees
    exact ⟨.reasync, by rw [List.map_eq_nil_iff.mp hrest]; rfl⟩
  | throws type =>
    obtain ⟨⟨⟩, rfl⟩ := List.cons.inj htrees
    obtain ⟨type', rfl⟩ := exists_thrownTrees_of_withoutTrivia hrest
    exact ⟨.throws type', rfl⟩
  | rethrows type =>
    obtain ⟨⟨⟩, rfl⟩ := List.cons.inj htrees
    obtain ⟨type', rfl⟩ := exists_thrownTrees_of_withoutTrivia hrest
    exact ⟨.rethrows type', rfl⟩

theorem exists_specifiers_of_withoutTrivia {us : List Tree} {es : List Specifier}
    (h : us.map withoutTrivia = es.flatMap Specifier.trees) :
    ∃ es' : List Specifier, us = es'.flatMap Specifier.trees := by
  induction es generalizing us with
  | nil => exact ⟨[], List.map_eq_nil_iff.mp h⟩
  | cons x es ih =>
    obtain ⟨front, back, rfl, hfront, hback⟩ := List.map_eq_append_iff.mp h
    obtain ⟨x', rfl⟩ := exists_trees_of_withoutTrivia hfront
    obtain ⟨es', rfl⟩ := ih hback
    exact ⟨x' :: es', rfl⟩

end Tree

namespace Cursor

open Token (significant)

variable {source : String} {c : Cursor}

/-- What is left of the lexemes where as many are left as there are tokens behind an element. -/
theorem map_token_drop_ofTokens (hc : c ∈ (ofTree (parse source).tree).nodes) :
    ((Lexeme.ofTokens (lex source)).1.drop
      ((Lexeme.ofTokens (lex source)).1.length - (significant c.behind).length)).map Lexeme.token =
      significant c.behind := by
  obtain ⟨before, hleaves⟩ := exists_leaves_of_mem_nodes hc
  rw [leaves_parse, ← List.append_assoc] at hleaves
  have htokens : (Lexeme.ofTokens (lex source)).1.map Lexeme.token =
      significant (before ++ c.tree.leaves) ++ significant c.behind := by
    rw [Lexeme.map_token_ofTokens, hleaves, Token.significant_append]
  have hlength := congrArg List.length htokens
  rw [List.length_map, List.length_append] at hlength
  rw [List.map_drop, htokens, hlength, Nat.add_sub_cancel, List.drop_left]

/-- Effect specifiers are some specifiers with trivia between them, and none stands behind them. -/
theorem exists_specifiers_of_ok (hok : (parse source).ok = true)
    (hc : c ∈ (ofTree (parse source).tree).nodes) (hk : c.tree.nodeKind? = some .effectSpecifiers) :
    (∃ es : List Specifier, es ≠ [] ∧ c.tree.parts = es.flatMap Specifier.trees) ∧
      (significant c.behind).head?.any Token.isEffect = false := by
  have hfinal : (finalState (lex source)).Placed
      (Grammar.Specified (Lexeme.ofTokens (lex source)).1) :=
    Grammar.placed_parseLexemes (fun _ => Lexeme.isSpelled_of_mem) (reports_of_ok hok)
  obtain ⟨⟨es, hes⟩, hend⟩ := of_placed hfinal (left_finalState source)
    (fun h => absurd h (by decide)) (withoutTrivia_parse source) hc hk rfl
  rw [Lookahead.atEffect_eq, map_token_drop_ofTokens hc] at hend
  rw [Tree.forestWithoutTrivia_eq] at hes
  obtain ⟨es', hes'⟩ := Tree.exists_specifiers_of_withoutTrivia hes
  refine ⟨⟨es', ?_, hes'⟩, hend⟩
  -- a node without parts has no tokens
  rintro rfl
  have habove := above_ne_nil_of_nodeKind? hc hk (by decide)
  refine significant_leaves_ne_nil_of_ok hok hc habove hk (by decide) ?_
  rw [Tree.significant_leaves_eq hk, Tree.parts, hes']
  rfl

end Cursor

/-! ## Reading -/

namespace Specifier

/-- What begins without a blank does so with what is thrown behind it, too. -/
theorem trim_append_thrownText {w : String} (hw : ∀ c ∈ w.toList, Text.isBlank c = false)
    (hne : w.toList ≠ []) (type : Option TypeTree) :
    Text.trim (w ++ thrownText type) = w ++ thrownText type := by
  cases type with
  | none =>
    rw [thrownText, String.append_empty]
    exact Text.trim_eq_self hw
  | some t =>
    have hchars : (w ++ thrownText (some t)).toList =
        w.toList ++ ('(' :: t.val.text.toList ++ [')']) := by simp [thrownText]
    refine Text.trim_eq_self_of_ends (fun c hc => ?_) fun c hc => ?_
    · rw [hchars, List.head?_append_of_ne_nil _ hne] at hc
      exact hw c (List.mem_of_mem_head? hc)
    · rw [hchars, ← List.append_assoc, List.getLast?_concat] at hc
      obtain rfl := Option.some.inj hc
      decide

/-- The text of a specifier has no blanks at its ends. -/
theorem trim_of_mem_throws? (x : Specifier) : ∀ text ∈ x.throws?, Text.trim text = text := by
  intro text htext
  cases x with
  | async => cases htext
  | reasync => cases htext
  | throws type =>
    obtain rfl := Option.some.inj htext
    exact trim_append_thrownText (Lexer.forall_mem_of_all (by decide)) (by decide) type
  | rethrows type =>
    obtain rfl := Option.some.inj htext
    exact trim_append_thrownText (Lexer.forall_mem_of_all (by decide)) (by decide) type

end Specifier

namespace Effects

variable {e : Effects} {pending : Option String}

/-- The effects with the text of what is thrown that is still to be added. -/
def settled (e : Effects) (pending : Option String) : Effects :=
  { e with throws := pending.or e.throws }

/-- The effects with one more specifier. -/
def specify (e : Effects) (x : Specifier) : Effects :=
  { async := x.async?.or e.async, throws := x.throws?.or e.throws }

/-- Trivia between specifiers are not read. -/
theorem ofElements_filter (e : Effects) (pending : Option String) (ts : List Tree) :
    ofElements e pending (ts.filter fun t => !t.isTriviaLeaf) = ofElements e pending ts := by
  induction ts generalizing e pending with
  | nil => rfl
  | cons t ts ih =>
    cases t with
    | node k children => exact ih _ _
    | leaf b =>
      cases hb : b.isTrivia with
      | true =>
        rw [List.filter_cons_of_neg (by simp [hb]), ih, ofElements, if_pos hb]
      | false =>
        have hnot : ¬ b.isTrivia = true := by simp [hb]
        rw [List.filter_cons_of_pos (by simp [hb]), ofElements, ofElements, if_neg hnot,
          if_neg hnot]
        simp only [ih]

/-- Reading one more specifier. The text of what is thrown is kept until it is known what follows
    it. -/
theorem exists_ofElements (e : Effects) (pending : Option String) (x : Specifier) :
    ∃ e' pending', (∀ text ∈ pending', Text.trim text = text) ∧
      settled e' pending' = (settled e pending).specify x ∧
      ∀ rest, ofElements e pending (x.trees ++ rest) = ofElements e' pending' rest := by
  have htrim := x.trim_of_mem_throws?
  -- the type between the parentheses is added with its text
  have hthrown (text : String) (type : Option TypeTree) (rest : List Tree) :
      ofElements e (some text) (Specifier.thrownTrees type ++ rest) =
        ofElements e (some (text ++ Specifier.thrownText type)) rest := by
    cases type with
    | none => rw [Specifier.thrownText, String.append_empty]; rfl
    | some t =>
      obtain ⟨k, children, htree⟩ := t.exists_node
      rw [Specifier.thrownTrees, Specifier.thrownText, htree]
      show ofElements e (some (text ++ "(" ++ (Tree.node k children).text ++ ")")) rest = _
      rw [String.append_assoc, String.append_assoc, String.append_assoc]
  cases x with
  | async => exact ⟨_, none, by simp, rfl, fun _ => rfl⟩
  | reasync => exact ⟨_, none, by simp, rfl, fun _ => rfl⟩
  | throws type => exact ⟨e, _, htrim, rfl, fun rest => hthrown "throws" type rest⟩
  | rethrows type => exact ⟨e, _, htrim, rfl, fun rest => hthrown "rethrows" type rest⟩

/-- What is read from specifiers is one after the other. -/
theorem ofElements_specifiers (hpending : ∀ text ∈ pending, Text.trim text = text)
    (es : List Specifier) :
    ofElements e pending (es.flatMap Specifier.trees) = es.foldl specify (settled e pending) := by
  induction es generalizing e pending with
  | nil =>
    cases pending with
    | none => rfl
    | some text =>
      show { e with throws := some (Text.trim text) } = settled e (some text)
      rw [hpending text rfl]
      rfl
  | cons x es ih =>
    obtain ⟨e', pending', hpending', hsettled, hread⟩ := exists_ofElements e pending x
    rw [List.flatMap_cons, hread, ih hpending', hsettled, List.foldl_cons]

/-- The last of what is found counts, unless nothing is found. -/
theorem getLast?_filterMap_cons {α β : Type} (f : α → Option β) (x : α) (xs : List α)
    (d : Option β) : ((x :: xs).filterMap f).getLast?.or d =
      (xs.filterMap f).getLast?.or ((f x).or d) := by
  cases hx : f x with
  | none => rw [List.filterMap_cons_none hx, Option.none_or]
  | some b =>
    rw [List.filterMap_cons_some hx, List.getLast?_cons]
    cases (xs.filterMap f).getLast? <;> rfl

/-- Of the specifiers of a sort the last one counts. -/
theorem foldl_specify (es : List Specifier) :
    es.foldl specify e =
      { async := (es.filterMap Specifier.async?).getLast?.or e.async
        throws := (es.filterMap Specifier.throws?).getLast?.or e.throws } := by
  induction es generalizing e with
  | nil => rfl
  | cons x es ih =>
    rw [List.foldl_cons, ih, getLast?_filterMap_cons, getLast?_filterMap_cons]
    rfl

/-- What is read from specifiers with trivia between them. -/
theorem ofElements_of_parts {t : Tree} {es : List Specifier}
    (h : t.parts = es.flatMap Specifier.trees) :
    ofElements {} none t.children =
      { async := (es.filterMap Specifier.async?).getLast?
        throws := (es.filterMap Specifier.throws?).getLast? } := by
  have hnone : ∀ text ∈ (none : Option String), Text.trim text = text := by simp
  rw [← ofElements_filter, ← Tree.parts, h, ofElements_specifiers hnone, foldl_specify]
  simp [settled]

end Effects

/-- Neighbours that a reading does not both take can change places. -/
theorem Specifier.filterMap_swap {α : Type} {f : Specifier → Option α} {a b : Specifier}
    (h : f a = none ∨ f b = none) (front back : List Specifier) :
    (front ++ a :: b :: back).filterMap f = (front ++ b :: a :: back).filterMap f := by
  rw [List.filterMap_append, List.filterMap_append]
  rcases h with h | h
  · simp only [List.filterMap_cons, h]
  · simp only [List.filterMap_cons, h]

/-- In a text without problems effect specifiers are a sequence of specifiers in any order and with
    any trivia between them, and no specifier stands behind them. What is read from them is the last
    one of each sort. So neighbours of different sorts can change places. -/
theorem effects_of_specifiers {source : String} (hok : (parse source).ok = true) {c : Cursor}
    (hc : c ∈ (Cursor.ofTree (parse source).tree).nodes)
    (hk : c.tree.nodeKind? = some .effectSpecifiers) :
    (∃ es : List Specifier, es ≠ [] ∧ c.tree.parts = es.flatMap Specifier.trees) ∧
    (Token.significant c.behind).head?.any Token.isEffect = false ∧
    ∀ es : List Specifier, c.tree.parts = es.flatMap Specifier.trees →
      Effects.ofElements {} none c.tree.children =
        { async := (es.filterMap Specifier.async?).getLast?
          throws := (es.filterMap Specifier.throws?).getLast? } ∧
      ∀ front a b back, es = front ++ a :: b :: back → a.async?.isSome ≠ b.async?.isSome →
        ∀ t : Tree, t.parts = (front ++ b :: a :: back).flatMap Specifier.trees →
          Effects.ofElements {} none t.children = Effects.ofElements {} none c.tree.children := by
  obtain ⟨hes, hend⟩ := Cursor.exists_specifiers_of_ok hok hc hk
  refine ⟨hes, hend, fun es hparts => ⟨Effects.ofElements_of_parts hparts, ?_⟩⟩
  intro front a b back hsplit hsorts t ht
  have hasync : a.async? = none ∨ b.async? = none := by
    cases a <;> cases b <;> simp [Specifier.async?] at hsorts ⊢
  have hthrows : a.throws? = none ∨ b.throws? = none := by
    cases a <;> cases b <;> simp [Specifier.async?, Specifier.throws?] at hsorts ⊢
  rw [Effects.ofElements_of_parts hparts, Effects.ofElements_of_parts ht, hsplit,
    Specifier.filterMap_swap hasync, Specifier.filterMap_swap hthrows]

/-- A comment stands between specifiers two of which change places. -/
theorem effects_of_rethrows_throws_async :
    (parse "func f() rethrows throws(E) /* c */ async {}").ok = true ∧
    ∃ c ∈ (Cursor.ofTree (parse "func f() rethrows throws(E) /* c */ async {}").tree).nodes,
      c.tree.nodeKind? = some .effectSpecifiers ∧
      c.tree.parts = [.rethrows none, .throwing "E", .async].flatMap Specifier.trees ∧
      Effects.ofElements {} none c.tree.children =
        { async := some "async", throws := some "throws(E)" } ∧
      Effects.ofElements {} none ([.rethrows none, .async, .throwing "E"].flatMap Specifier.trees) =
        Effects.ofElements {} none c.tree.children := by
  have hfound :
      ((Cursor.ofTree (parse "func f() rethrows throws(E) /* c */ async {}").tree).nodes.any
        fun c => c.tree.nodeKind? == some .effectSpecifiers && c.tree.parts ==
          [.rethrows none, .throwing "E", .async].flatMap Specifier.trees) = true := by
    decide +kernel
  obtain ⟨c, hc, hcond⟩ := List.any_eq_true.mp hfound
  obtain ⟨hkind, hequal⟩ := Bool.and_eq_true_iff.mp hcond
  have hk := eq_of_beq hkind
  have hparts := eq_of_beq hequal
  obtain ⟨-, -, hread⟩ := effects_of_specifiers (by decide +kernel) hc hk
  obtain ⟨hes, hswap⟩ := hread _ hparts
  refine ⟨by decide +kernel, c, hc, hk, hparts, hes, ?_⟩
  exact hswap [.rethrows none] _ _ [] rfl (by decide) (.node .effectSpecifiers _) rfl

end SwiftOutline
