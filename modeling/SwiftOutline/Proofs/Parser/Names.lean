/-
  SwiftOutline.Proofs.Parser.Names

  Declared names. What has been built lies over the lexemes that have been
  consumed, whatever program has been run. A name is an identifier, or it goes on
  from its first token for as long as operators and points follow without a gap.
  So it holds tokens only, and no trivia.
-/
import SwiftOutline.Proofs.Parser.Kinds
import SwiftOutline.Proofs.Token.Operators
import SwiftOutline.Proofs.Tree.Everywhere
import SwiftOutline.Proofs.Tree.Over

namespace SwiftOutline

open SwiftOutline.Tree (Over OverAll leavesOf)

namespace State

variable {P : NodeKind → List Tree → List Lexeme → Prop} {s t u : State} {ls : List Lexeme}

/-- What had been built lay over some lexemes; now what has been built lies over these and those
    that have been consumed since. -/
def KeepsOver (P : NodeKind → List Tree → List Lexeme → Prop) (s t : State) : Prop :=
  ∀ ls, OverAll P s.built.reverse ls →
    ∃ used, s.view.lexemes = used ++ t.view.lexemes ∧ OverAll P t.built.reverse (ls ++ used)

theorem KeepsOver.refl (s : State) : KeepsOver P s s := fun _ h =>
  ⟨[], rfl, by rwa [List.append_nil]⟩

theorem KeepsOver.trans (h : KeepsOver P s t) (h' : KeepsOver P t u) : KeepsOver P s u := by
  intro ls hs
  obtain ⟨used, hst, ht⟩ := h ls hs
  obtain ⟨used', htu, hu⟩ := h' _ ht
  exact ⟨used ++ used', by rw [hst, htu, List.append_assoc], by rwa [← List.append_assoc]⟩

/-- Lexemes that become leaves. -/
theorem KeepsOver.of_leaves {used : List Lexeme} (hlexemes : s.view.lexemes = used ++ t.view.lexemes)
    (hbuilt : t.built.reverse = s.built.reverse ++ leavesOf used) : KeepsOver P s t := by
  intro ls hs
  refine ⟨used, hlexemes, ?_⟩
  rw [hbuilt]
  exact hs.append (Tree.overAll_leavesOf P used)

/-- A node of lexemes that become leaves. -/
theorem KeepsOver.of_node {k : NodeKind} {used : List Lexeme}
    (hlexemes : s.view.lexemes = used ++ t.view.lexemes) (hbuilt : t.built.reverse = leavesOf used)
    (hP : P k (leavesOf used) used) : KeepsOver P s (t.finish s false (some k)) := by
  intro ls hs
  refine ⟨used, hlexemes, ?_⟩
  simp only [State.finish, List.reverse_cons, hbuilt]
  exact hs.append (Over.node hP (Tree.overAll_leavesOf P used)).single

/-- A node over the lexemes that have been consumed since it was started. -/
theorem KeepsOver.node {adopt : Bool} {k : NodeKind} (h : KeepsOver P (s.start adopt) t)
    (hP : ∀ ls, P k t.built.reverse ls) : KeepsOver P s (t.finish s adopt (some k)) := by
  obtain ⟨before, hbuilt, hbefore⟩ := s.exists_built_start adopt
  intro ls hs
  rw [hbuilt, List.reverse_append] at hs
  obtain ⟨front, back, rfl, hfront, hback⟩ := hs.exists_append
  obtain ⟨used, hlexemes, ht⟩ := h back hback
  refine ⟨used, hlexemes, ?_⟩
  simp only [State.finish, hbefore, List.reverse_cons]
  rw [List.append_assoc]
  exact hfront.append (Over.node (hP _) ht).single

theorem KeepsOver.finish {adopt : Bool} (h : KeepsOver P (s.start adopt) t) :
    KeepsOver P s (t.finish s adopt none) := by
  obtain ⟨before, hbuilt, hbefore⟩ := s.exists_built_start adopt
  intro ls hs
  rw [hbuilt, List.reverse_append] at hs
  obtain ⟨front, back, rfl, hfront, hback⟩ := hs.exists_append
  obtain ⟨used, hlexemes, ht⟩ := h back hback
  refine ⟨used, hlexemes, ?_⟩
  simp only [State.finish, hbefore, List.reverse_append]
  rw [List.append_assoc]
  exact hfront.append ht

/-- All programs keep what lies over lexemes, if nodes have the property anyway. -/
def keepingOver (P : NodeKind → List Tree → List Lexeme → Prop) (free : NodeKind → Prop)
    (hfree : ∀ k ts ls, free k → P k ts ls) : Parser.Kept where
  rel := KeepsOver P
  free := free
  refl := .refl
  trans := .trans
  consume s := by
    cases hend : s.view.atEnd with
    | true => rw [consume_of_atEnd hend]; exact .refl s
    | false =>
      obtain ⟨l, rest, hlexemes, -, hconsume⟩ := consume_of_not_atEnd hend
      rw [hconsume]
      have hused : s.view.lexemes = [l] ++ rest := hlexemes
      exact .of_leaves hused (List.reverse_cons ..)
  complain s _ := .refl s
  finish {s t adopt k?} h hk := by
    cases k? with
    | none => exact h.finish
    | some k => exact h.node fun ls => hfree k _ ls (hk k rfl)
  withDirectives h := h

end State

namespace Tree

/-- Names over lexemes: the lexemes behind the first one have no gap before them. -/
def NameOver (k : NodeKind) (children : List Tree) (ls : List Lexeme) : Prop :=
  k = .declaredName → children = leavesOf ls ∧
    ∀ l ∈ ls.tail, l.gap.trivia = false ∧ l.kind.extendsOperator = true

/-- Names are made of tokens, and all but the first one go on with an operator. -/
def IsName (k : NodeKind) (children : List Tree) : Prop :=
  k = .declaredName → ∃ ts : List Token, children = ts.map .leaf ∧
    ∀ t ∈ ts.tail, t.kind.extendsOperator = true

theorem weaves_name : Weaves NameOver IsName := by
  intro k children ls more tokens hname h hstart hk
  obtain ⟨rfl, htail⟩ := hname hk
  rw [weaveForest_leavesOf h hstart fun l hl => (htail l hl).1]
  refine ⟨ls.map Lexeme.token, by rw [leavesOf, List.map_map]; rfl, fun t ht => ?_⟩
  rw [← List.map_tail] at ht
  obtain ⟨l, hl, rfl⟩ := List.mem_map.mp ht
  exact (htail l hl).2

end Tree

namespace State

variable {p : Lexeme → Prop} {s t u : State}

/-- From one state to the other lexemes have been consumed that satisfy `p`, and nothing else has
    been done. -/
def Takes (p : Lexeme → Prop) (s t : State) : Prop :=
  ∃ used, s.view.lexemes = used ++ t.view.lexemes ∧
    t.built.reverse = s.built.reverse ++ leavesOf used ∧ ∀ l ∈ used, p l

theorem Takes.refl (s : State) : Takes p s s :=
  ⟨[], rfl, by rw [leavesOf, List.map_nil, List.append_nil], nofun⟩

theorem Takes.trans (h : Takes p s t) (h' : Takes p t u) : Takes p s u := by
  obtain ⟨used, hst, ht, hused⟩ := h
  obtain ⟨used', htu, hu, hused'⟩ := h'
  refine ⟨used ++ used', by rw [hst, htu, List.append_assoc], ?_, ?_⟩
  · rw [hu, ht, leavesOf, leavesOf, leavesOf, List.map_append, List.append_assoc]
  · exact fun l hl => (List.mem_append.mp hl).elim (hused l) (hused' l)

theorem takes_consume {l : Lexeme} {ls : List Lexeme} (hs : s.view.lexemes = l :: ls)
    (hl : l.kind ≠ .eof) (hp : p l) : Takes p s s.consume := by
  have hconsume : s.consume = { s with
      view := { s.view with lexemes := ls }
      built := .leaf l.token :: s.built } := by
    rw [consume, hs]
    simp [hl]
  rw [hconsume]
  exact ⟨[l], hs, List.reverse_cons .., fun l' hl' => List.mem_singleton.mp hl' ▸ hp⟩

/-- Lexemes have been consumed that make up a name, and nothing else has been done. -/
def TakesName (s t : State) : Prop :=
  ∃ used, s.view.lexemes = used ++ t.view.lexemes ∧
    t.built.reverse = s.built.reverse ++ leavesOf used ∧
    ∀ l ∈ used.tail, l.gap.trivia = false ∧ l.kind.extendsOperator = true

end State

namespace Grammar

open SwiftOutline.Parser
open SwiftOutline.State (Takes TakesName takes_consume keepingOver)
open SwiftOutline.Tree (NameOver)

variable {call : Rule → State → Bool × State}

/-! ## Programs for names -/

/-- What an operator goes on with. -/
def Joined (l : Lexeme) : Prop := l.gap.trivia = false ∧ l.kind.extendsOperator = true

theorem takes_operatorPart (stops : TokenKind → Bool) (s : State) :
    Takes Joined s ((operatorPart stops).run call s).2 := by
  simp only [operatorPart, run_view_bind, run_ite]
  split
  · next hpart =>
    simp only [Bool.and_eq_true, Bool.not_eq_true'] at hpart
    obtain ⟨⟨hgap, hkind⟩, -⟩ := hpart
    have hend : s.view.atEnd = false := by
      rw [View.atEnd, beq_eq_false_iff_ne]
      intro heof
      rw [heof] at hkind
      cases hkind
    obtain ⟨l, ls, hlexemes, hl, -⟩ := State.consume_of_not_atEnd hend
    have hview : s.view.gap = l.gap ∧ s.view.kind = l.kind := by
      rw [View.gap, View.gapAt, View.kind, View.kindAt, hlexemes]
      exact ⟨rfl, rfl⟩
    rw [hview.1] at hgap
    rw [hview.2] at hkind
    exact takes_consume hlexemes hl ⟨hgap, hkind⟩
  · exact .refl s

theorem takes_operatorParts (stops : TokenKind → Bool) (s : State) :
    Takes Joined s ((repeating (operatorPart stops)).run call s).2 := by
  rw [run_repeating]
  exact of_roundsOf (I := Takes Joined s) (J := Takes Joined s)
    (fun t ht => ht.trans (takes_operatorPart stops t)) (fun _ => id) s.left (.refl s)

/-- A name may begin with anything. -/
theorem takesName_of_consume {s t : State} (h : Takes Joined s.consume t) : TakesName s t := by
  obtain ⟨used, hlexemes, hbuilt, hused⟩ := h
  cases hend : s.view.atEnd with
  | true =>
    rw [State.consume_of_atEnd hend] at hlexemes hbuilt
    exact ⟨used, hlexemes, hbuilt, fun l hl => hused l (List.mem_of_mem_tail hl)⟩
  | false =>
    obtain ⟨l, ls, hls, -, hconsume⟩ := State.consume_of_not_atEnd hend
    rw [hconsume] at hlexemes hbuilt
    refine ⟨l :: used, hls.trans (congrArg (l :: ·) hlexemes), ?_, hused⟩
    rw [hbuilt, List.reverse_cons, List.append_assoc]
    rfl

theorem IsName.takesName {p : Parser Unit} (h : IsName p) (call : Rule → State → Bool × State)
    (s : State) : TakesName s (p.run call s).2 := by
  cases h with
  | word => exact takesName_of_consume (.refl _)
  | operator stops => exact takesName_of_consume (takes_operatorParts stops s.consume)

/-! ## All programs -/

/-- Everything is admitted but names that are made of something else. -/
def namedForms : Forms where
  node adopt k p := k = .declaredName → adopt = false ∧ ∀ call s, TakesName s (p.run call s).2
  rule _ := True

instance : HasItems namedForms where
  node h hk := by subst hk; exact absurd h (by decide)
  argument _ hk := nomatch hk
  name h _ := ⟨rfl, fun call s => by rw [run_bind]; exact h.takesName call s⟩
  specifiers hk := nomatch hk
  rule _ := trivial
  item h hk := by subst hk; exact absurd h (by decide)
  cases := trivial

instance : HasTypes namedForms where
  type h hk := by subst hk; exact absurd h (by decide)

instance : Adopts namedForms := ⟨trivial⟩

instance : HasBlocks namedForms where
  block hk := nomatch hk

/-- What all rules do to names. -/
def keepingNames : Parser.Kept :=
  keepingOver NameOver (· ≠ .declaredName) fun _ _ _ hk hname => absurd hname hk

theorem allows_namedForms (hcall : ∀ r s, keepingNames.rel s (call r s).2) :
    keepingNames.Allows call namedForms where
  node {_ adopt k body s} hnode hbody := by
    by_cases hk : k = .declaredName
    · obtain ⟨rfl, htakes⟩ := hnode hk
      obtain ⟨used, hlexemes, hbuilt, htail⟩ := htakes call (s.start false)
      exact .of_node hlexemes hbuilt fun _ => ⟨rfl, htail⟩
    · exact keepingNames.finish hbody fun _ hk' => Option.some.inj hk' ▸ hk
  rule _ := hcall _

theorem keepingNames_runRule (depth : Nat) :
    ∀ r s, keepingNames.rel s (runRule depth r s).2 := by
  induction depth with
  | zero => exact fun _ _ => keepingNames.refl _
  | succ depth ih => exact fun r => (allows_namedForms ih).by (makes_body r)

/-- All names that the parser makes are made of lexemes without gaps between them. -/
theorem over_parseLexemes (lexemes : List Lexeme) (endGap : Gap) :
    ∃ used, lexemes = used ++ (parseLexemes lexemes endGap).view.lexemes ∧
      OverAll NameOver (parseLexemes lexemes endGap).built.reverse used := by
  have hfile : keepingNames.By (runRule (depthBound lexemes.length)) file :=
    (allows_namedForms (keepingNames_runRule _)).by (P := fun _ => True) (by simp)
  have hrun : State.KeepsOver NameOver (.initial lexemes endGap) (parseLexemes lexemes endGap) := by
    rw [parseLexemes]
    exact hfile _
  exact hrun [] .nil

end Grammar

/-- The names in the tree of a text are made of tokens. -/
theorem names_parse (source : String) : (parse source).tree.Everywhere Tree.IsName := by
  obtain ⟨used, hlexemes, hover⟩ :=
    Grammar.over_parseLexemes (Lexeme.ofTokens (lex source)).1 (Lexeme.ofTokens (lex source)).2
  have hcovers := Lexeme.covers_ofTokens (lex source)
  rw [hlexemes] at hcovers
  have htree := Tree.everywhere_rootWithTrivia Tree.weaves_name hover hcovers
  rw [parse, parseTokens]
  exact .node (fun h => absurd h (by decide)) htree

end SwiftOutline
