/-
  SwiftOutline.Proofs.Cut.TopLevel

  A declaration at the top level of a text, parsed alone. The run on the text
  comes to the declaration as one item of the file; on the lexemes of the
  declaration alone the same item is found, and nothing else. There no gap stands
  before the first lexeme; but what begins with an attribute, a modifier or a word
  consumes that before it looks at the gap, so it runs in the same way.
-/
import SwiftOutline.Proofs.Cut.Item
import SwiftOutline.Proofs.Parser.Framed
import SwiftOutline.Proofs.Parser.Recovers
import SwiftOutline.Proofs.Token.Locality
import SwiftOutline.Proofs.Tree.Recovery

namespace SwiftOutline

/-! ## Another gap -/

/-- Lexemes with another gap before the first one. -/
def Lexeme.regap (g : Gap) : List Lexeme → List Lexeme
  | [] => []
  | l :: ls => { l with gap := g } :: ls

/-- What can be seen with another gap before the first lexeme. -/
def View.regap (g : Gap) (v : View) : View := { v with lexemes := Lexeme.regap g v.lexemes }

/-- The state with another gap before the first lexeme. -/
def State.regap (g : Gap) (s : State) : State := { s with view := s.view.regap g }

theorem Lexeme.length_regap (g : Gap) (ls : List Lexeme) : (regap g ls).length = ls.length := by
  cases ls <;> rfl

namespace View

variable {v : View} {g : Gap}

theorem kindAt_regap (n : Nat) : (v.regap g).kindAt n = v.kindAt n := by
  rw [kindAt, kindAt, regap]
  cases v.lexemes with
  | nil => rfl
  | cons l ls => cases n <;> rfl

theorem kind_regap : (v.regap g).kind = v.kind := kindAt_regap 0

end View

namespace State

variable {s : State} {g : Gap}

theorem left_regap : (s.regap g).left = s.left := Lexeme.length_regap g s.view.lexemes

/-- Behind the first lexeme its gap has been forgotten. -/
theorem consume_regap (h : s.view.atEnd = false) : (s.regap g).consume = s.consume := by
  obtain ⟨l, ls, hls, hl, hconsume⟩ := consume_of_not_atEnd h
  rw [hconsume, consume, regap, View.regap, hls]
  simp [Lexeme.regap, hl, Lexeme.token]

end State

/-! ## Looking ahead -/

namespace Lookahead

variable {g : Gap} {ls : List Lexeme}

theorem atModifier_regap : atModifier (Lexeme.regap g ls) = atModifier ls := by
  cases ls <;> rfl

/-- Behind all attributes the same is left, or there are no attributes. -/
theorem skipAttributes_regap : skipAttributes (Lexeme.regap g ls) = skipAttributes ls ∨
    skipAttributes (Lexeme.regap g ls) = Lexeme.regap g ls ∧ skipAttributes ls = ls := by
  cases ls with
  | nil => exact .inl rfl
  | cons l ls =>
    by_cases hl : l.kind = .atSign
    · refine .inl ?_
      show skipMany skipAttribute? (ls.length + 1) ({ l with gap := g } :: ls) =
        skipMany skipAttribute? (ls.length + 1) (l :: ls)
      simp only [skipMany, skipAttribute?, headKind_cons, hl, beq_self_eq_true, if_true]
      rfl
    · exact .inr ⟨skipAttributes_of_ne hl, skipAttributes_of_ne hl⟩

/-- Behind all modifiers the same is left, or there are no modifiers. -/
theorem skipModifiers_regap : skipModifiers (Lexeme.regap g ls) = skipModifiers ls ∨
    skipModifiers (Lexeme.regap g ls) = Lexeme.regap g ls ∧ skipModifiers ls = ls := by
  cases hat : atModifier ls with
  | true =>
    refine .inl ?_
    rw [skipModifiers_of_atModifier hat, skipModifiers_of_atModifier (atModifier_regap.trans hat)]
    cases ls with
    | nil => rfl
    | cons l ls =>
      rw [Lexeme.regap, List.drop_succ_cons, List.drop_succ_cons]
      split <;> rfl
  | false =>
    exact .inr ⟨skipModifiers_of_not (atModifier_regap.trans hat), skipModifiers_of_not hat⟩

theorem declaration?_regap {scope : Scope} :
    declaration? scope (Lexeme.regap g ls) = declaration? scope ls := by
  rw [declaration?, declaration?]
  have hattributes := @skipAttributes_regap g ls
  have hmodifiers := @skipModifiers_regap g ls
  rcases hattributes with hsame | ⟨hleft, hright⟩
  · rw [hsame]
  · rw [hleft, hright]
    rcases hmodifiers with hsame | ⟨hleft, hright⟩
    · rw [hsame]
    · rw [hleft, hright]
      cases ls <;> rfl

end Lookahead

/-! ## Programs that forget the gap -/

namespace Parser

variable {α β : Type} {v : View} {p : Parser α} {f : α → Parser β}

/-- Where `v` is seen, a program consumes the next lexeme before it does anything but look, and it
    does not look at the gap before that. -/
def Opens : {α : Type} → View → Parser α → Prop
  | _, _, .done _ => False
  | _, v, .look next => (∀ g, next (v.regap g) = next v) ∧ Opens v (next v)
  | _, _, .consume _ => True
  | _, _, .complain _ _ => False
  | _, v, .group _ inner _ => Opens v inner
  | _, v, .directive inner _ => Opens { v with directives := v.directives + 1 } inner
  | _, _, .call _ _ => False
  | _, v, .loop round init _ => Opens v (round init)

/-- Such a program runs in the same way whatever the gap is. -/
theorem Opens.proceeds {body : Rule → Parser Bool} {E : List Entry} {s t : State} {a : α}
    (g : Gap) (h : Opens s.view p) (hend : s.view.atEnd = false)
    (hrun : Proceeds body E p s a t) : Proceeds body E p (s.regap g) a t := by
  induction p generalizing s t with
  | done a => exact h.elim
  | look next ih =>
    cases hrun with
    | look rest =>
      refine .look ?_
      show Proceeds body E (next (s.view.regap g)) (s.regap g) a t
      rw [h.1 g]
      exact ih _ h.2 hend rest
  | consume next ih =>
    cases hrun with
    | consume rest => exact .consume (by rwa [State.consume_regap hend])
  | complain p next ih => exact h.elim
  | group adopt inner next ihb ihn =>
    cases hrun with
    | group inside rest => exact .group (ihb (s := s.start adopt) h hend inside) rest
  | directive inner next ihb ihn =>
    cases hrun with
    | directive inside rest =>
      exact .directive (ihb (s := s.withDirectives (s.view.directives + 1)) h hend inside) rest
  | call r next ih => exact h.elim
  | loop round init next ihr ihn =>
    cases hrun with
    | stop inside rest => exact .stop (ihr _ h hend inside) rest
    | again inside eaten rest =>
      exact .again (ihr _ h hend inside) (by rwa [State.left_regap]) rest

/-- Such a program consumes something wherever a lexeme is left. -/
theorem Opens.feeds {x : Bool} (h : Opens v p) (hend : v.atEnd = false) : Feeds x v p := by
  induction p generalizing v with
  | done a => exact h.elim
  | look next ih =>
    rintro s rfl
    exact ih _ h.2 hend s rfl
  | consume next ih =>
    rintro s rfl
    refine wlp_mono (fun _ t ht => .inl ?_) (wlp_reaches next s.consume)
    exact Nat.lt_of_le_of_lt ht.left_le (State.left_consume_lt hend)
  | complain p next ih => exact h.elim
  | group adopt inner next ihb ihn =>
    rintro s rfl
    rw [wlp]
    refine wlp_mono (fun r t ht => ?_) (ihb h hend (s.start adopt) rfl)
    have hfed : (t.finish s adopt r.2).left < s.left ∨
        (x = false ∧ (t.finish s adopt r.2).reports ≠ []) := ht
    exact wlp_mono (fun _ _ hu => fed_of_reaches hfed hu) (wlp_reaches (next r.1) _)
  | directive inner next ihb ihn =>
    rintro s rfl
    rw [wlp]
    refine wlp_mono (fun b t ht => ?_)
      (ihb h hend (s.withDirectives (s.view.directives + 1)) rfl)
    have hfed : (t.withDirectives s.view.directives).left < s.left ∨
        (x = false ∧ (t.withDirectives s.view.directives).reports ≠ []) := ht
    exact wlp_mono (fun _ _ hu => fed_of_reaches hfed hu) (wlp_reaches (next b) _)
  | call r next ih => exact h.elim
  | loop round init next ihr ihn => exact .loop (ihr _ h hend)

/-! ### Opening programs -/

/-- What the first step opens with. -/
theorem Opens.first (h : Opens v p) : Opens v (p >>= f) := by
  show Opens v (p.andThen f)
  induction p generalizing v with
  | done a => exact h.elim
  | look next ih =>
    exact ⟨fun g => congrArg (fun q : Parser _ => q.andThen f) (h.1 g), ih _ h.2⟩
  | consume next ih => exact trivial
  | complain p next ih => exact h.elim
  | group adopt inner next _ _ => exact h
  | directive inner next _ _ => exact h
  | call r next ih => exact h.elim
  | loop round init next _ _ => exact h

theorem Opens.bump : Opens v bump := trivial

theorem Opens.view_bind {f : View → Parser β} (hsame : ∀ g, f (v.regap g) = f v)
    (h : Opens v (f v)) : Opens v (view >>= f) := ⟨hsame, h⟩

theorem Opens.kind_bind {f : TokenKind → Parser β} (h : Opens v (f v.kind)) :
    Opens v (kind >>= f) :=
  .view_bind (f := fun w => f w.kind) (fun _ => by rw [View.kind_regap]) h

theorem Opens.sees_bind {k : TokenKind} {f : Bool → Parser β} (h : Opens v (f (v.kind == k))) :
    Opens v (sees k >>= f) :=
  .kind_bind (f := fun x => f (x == k)) h

theorem Opens.node {k : NodeKind} (h : Opens v p) : Opens v (node k p) := h.first

theorem Opens.node? {p : Parser (Option NodeKind)} (h : Opens v p) : Opens v (node? p) := h.first

theorem Opens.repeating {p : Parser Bool} (h : Opens v p) : Opens v (repeating p) := h.first

theorem Opens.inDirective (h : Opens { v with directives := v.directives + 1 } p) :
    Opens v (inDirective p) := h

end Parser

/-! ## Items -/

namespace Grammar

open SwiftOutline.Parser

variable {v : View} {β : Type} {f : Unit → Parser β} {scope : Scope} {k : NodeKind}

theorem opens_attributes (h : v.kind = .atSign) : Opens v attributes := by
  have huse : Opens v nextAttribute := by
    refine .sees_bind ?_
    rw [beq_iff_eq.mpr h, if_pos rfl]
    exact (Opens.node Opens.bump.first).first
  refine .sees_bind ?_
  rw [beq_iff_eq.mpr h, if_pos rfl]
  exact .node (.repeating huse)

/-- Where there are no attributes, what follows them opens. -/
theorem opens_behindAttributes (h : v.kind ≠ .atSign) (hf : Opens v (f ())) :
    Opens v (attributes >>= f) := by
  have hsees : Opens v (sees .atSign >>= fun b =>
      (if b then node .attributeList (repeating nextAttribute) else pure ()).andThen f) := by
    refine .sees_bind ?_
    rw [beq_false_of_ne h, if_neg Bool.false_ne_true]
    exact hf
  exact hsees

theorem opens_modifiers (h : Lookahead.atModifier v.lexemes = true) : Opens v modifiers := by
  have hmodifier : Opens v nextModifier := by
    refine .view_bind (fun g => ?_) ?_
    · rw [View.regap, Lookahead.atModifier_regap]
    · rw [if_pos h]
      exact (Opens.node Opens.bump.first).first
  refine .view_bind (fun g => ?_) ?_
  · rw [View.regap, Lookahead.atModifier_regap]
  · rw [if_pos h]
    exact .node (.repeating hmodifier)

/-- Where there are no modifiers, what follows them opens. -/
theorem opens_behindModifiers (h : Lookahead.atModifier v.lexemes = false) (hf : Opens v (f ())) :
    Opens v (modifiers >>= f) := by
  have hview : Opens v (view >>= fun w =>
      (if Lookahead.atModifier w.lexemes then node .modifierList (repeating nextModifier)
        else pure ()).andThen f) := by
    refine .view_bind (fun g => ?_) ?_
    · rw [View.regap, Lookahead.atModifier_regap]
    · rw [if_neg (Bool.eq_false_iff.mp h)]
      exact hf
  exact hview

/-- Every declaration begins with its word, if with no attribute or modifier. -/
theorem opens_declarationRest (h : isWorded k = true) : Opens v (declarationRest k) := by
  unfold isWorded at h
  unfold declarationRest
  split at h <;> first | exact Opens.bump.first | cases h

theorem opens_declaration (h : isWorded k = true) : Opens v (declaration k) := by
  refine .node ?_
  by_cases hattribute : v.kind = .atSign
  · exact (opens_attributes hattribute).first
  · refine opens_behindAttributes hattribute ?_
    cases hmodifier : Lookahead.atModifier v.lexemes with
    | true => exact (opens_modifiers hmodifier).first
    | false => exact opens_behindModifiers hmodifier (opens_declarationRest h)

theorem opens_directiveBlock : Opens v (directiveBlock scope) := by
  have hbranch : ∀ w : View, Opens w (directiveBranch scope) := fun w =>
    .node (.sees_bind Opens.bump.first)
  exact .node (Opens.first (.inDirective (hbranch _).first))

theorem kind_of_atStatementLabel (h : atStatementLabel v = true) : v.kind = .ident := by
  rw [atStatementLabel, Bool.and_eq_true, Bool.and_eq_true] at h
  exact eq_of_beq h.1.1

theorem atStatementLabel_regap (g : Gap) : atStatementLabel (v.regap g) = atStatementLabel v := by
  rw [atStatementLabel, atStatementLabel, View.kind_regap, View.kindAt_regap, View.kindAt_regap]

/-- A `switch` or a statement with a label comes next. -/
def AtSwitch (v : View) : Prop := v.kind = .kwSwitch ∨ atStatementLabel v = true

theorem AtSwitch.kind (h : AtSwitch v) : v.kind = .kwSwitch ∨ v.kind = .ident :=
  h.imp_right kind_of_atStatementLabel

/-- No declaration begins like that, not even with a label that is a modifier elsewhere. -/
theorem AtSwitch.declaration? (h : AtSwitch v) :
    Lookahead.declaration? scope v.lexemes = none := by
  have hattributes : Lookahead.skipAttributes v.lexemes = v.lexemes := by
    refine Lookahead.skipAttributes_of_ne ?_
    rw [← View.kind_eq]
    rcases h.kind with hk | hk <;> rw [hk] <;> decide
  rcases h with hswitch | hlabel
  · -- the word itself is no modifier and introduces nothing
    have hkind : Lookahead.headKind v.lexemes = .kwSwitch := View.kind_eq.symm.trans hswitch
    have hmodifier : Lookahead.atModifier v.lexemes = false := by
      cases hls : v.lexemes with
      | nil => rfl
      | cons l ls =>
        rw [hls, Lookahead.headKind_cons] at hkind
        simp [Lookahead.atModifier, Lookahead.atModifierWord, Lookahead.headKind_cons, hkind]
    rw [Lookahead.declaration?, hattributes, Lookahead.skipModifiers_of_not hmodifier, hkind]
  · rw [atStatementLabel, Bool.and_eq_true, Bool.and_eq_true, beq_iff_eq, beq_iff_eq,
      View.kind_eq, View.kindAt_eq] at hlabel
    obtain ⟨⟨hname, hcolon⟩, -⟩ := hlabel
    -- a label may spell a modifier, but a colon follows it
    rcases hls : v.lexemes with _ | ⟨l, _ | ⟨m, ls⟩⟩
    · rw [hls] at hname
      cases hname
    · rw [hls] at hcolon
      cases hcolon
    · rw [hls] at hname hcolon
      rw [Lookahead.headKind_cons] at hname
      rw [List.drop_succ_cons, List.drop_zero, Lookahead.headKind_cons] at hcolon
      have hmodifier : Lookahead.atModifier (m :: ls) = false := by
        simp [Lookahead.atModifier, Lookahead.atModifierWord, Lookahead.headKind_cons, hcolon]
      have hdetail : Lookahead.atModifierDetail (m :: ls) = false := by
        simp [Lookahead.atModifierDetail, Lookahead.headKind_cons, hcolon]
      have hskip : Lookahead.skipModifiers (l :: m :: ls) = l :: m :: ls ∨
          Lookahead.skipModifiers (l :: m :: ls) = m :: ls := by
        cases hat : Lookahead.atModifier (l :: m :: ls) with
        | false => exact .inl (Lookahead.skipModifiers_of_not hat)
        | true =>
          refine .inr ?_
          rw [Lookahead.skipModifiers_of_atModifier hat, List.drop_succ_cons, List.drop_zero,
            hdetail]
          exact Lookahead.skipModifiers_of_not hmodifier
      rw [hls] at hattributes
      rw [Lookahead.declaration?, hattributes]
      rcases hskip with hskip | hskip
      · simp [hskip, Lookahead.headKind_cons, hname, hcolon]
      · simp [hskip, Lookahead.headKind_cons, hcolon]

theorem opens_statement (h : AtSwitch v) : Opens v statement := by
  have hbody : Opens v labelledStatement := by
    refine .view_bind (fun g => ?_) ?_
    · rw [atStatementLabel_regap]
    · split
      · exact Opens.bump.first
      · next hlabel =>
        refine .kind_bind ?_
        rw [h.resolve_right hlabel]
        exact (Opens.bump.first).first
  refine .kind_bind ?_
  dsimp only
  rw [if_neg (by rcases h.kind with hk | hk <;> rw [hk] <;> decide),
    if_neg (by rcases h.kind with hk | hk <;> rw [hk] <;> decide)]
  exact (Opens.node? hbody).first

/-- A declaration, an `#if` block or a statement that may hold a `switch` comes next. -/
inductive Begins (v : View) : Prop where
  | declaration {k : NodeKind} (h : Lookahead.declaration? .topLevel v.lexemes = some k)
  | directive (h : v.kind = .poundIf)
  | statement (h : AtSwitch v)

theorem opens_declarationOrStatement
    (h : (∃ k, Lookahead.declaration? .topLevel v.lexemes = some k) ∨ AtSwitch v) :
    Opens v (declarationOrStatement .topLevel) := by
  refine .view_bind (fun g => ?_) ?_
  · rw [View.regap, Lookahead.declaration?_regap]
    rfl
  · rcases h with ⟨k, hk⟩ | hswitch
    · rw [hk]
      exact opens_declaration (isWorded_of_declaration? hk)
    · rw [hswitch.declaration?]
      exact opens_statement hswitch

/-- No declaration begins with a closing bracket, a directive or a semicolon, or at the end. -/
theorem declaration?_of_kind (h : v.kind.isCloser = true ∨ v.kind.isDirective = true ∨
      v.kind = .semicolon ∨ v.kind = .eof) :
    Lookahead.declaration? scope v.lexemes = none := by
  rw [View.kind_eq] at h
  cases hls : v.lexemes with
  | nil => rfl
  | cons l ls =>
    rw [hls, Lookahead.headKind_cons] at h
    have hattributes : Lookahead.skipAttributes (l :: ls) = l :: ls := by
      refine Lookahead.skipAttributes_of_ne fun hk => ?_
      rw [Lookahead.headKind_cons] at hk
      rw [hk] at h
      exact absurd h (by decide)
    have hmodifier : Lookahead.atModifier (l :: ls) = false := by
      revert h
      rw [Lookahead.atModifier, Lookahead.atModifierWord, Lookahead.headKind_cons]
      cases l.kind <;> simp [TokenKind.isCloser, TokenKind.isDirective]
    rw [Lookahead.declaration?, hattributes, Lookahead.skipModifiers_of_not hmodifier,
      Lookahead.headKind_cons]
    revert h
    cases l.kind <;> simp [TokenKind.isCloser, TokenKind.isDirective]

theorem Begins.kind (h : Begins v) : v.kind.isCloser = false ∧
    (v.kind.isDirective = true → v.kind = .poundIf) ∧ v.kind ≠ .semicolon ∧ v.kind ≠ .eof := by
  rcases h with hd | hif | hswitch
  · have hnot : ¬ (v.kind.isCloser = true ∨ v.kind.isDirective = true ∨ v.kind = .semicolon ∨
        v.kind = .eof) := by
      intro hk
      rw [declaration?_of_kind hk] at hd
      cases hd
    simp only [not_or, Bool.not_eq_true] at hnot
    exact ⟨hnot.1, fun hk => absurd (hnot.2.1.symm.trans hk) Bool.false_ne_true, hnot.2.2⟩
  · rw [hif]
    exact ⟨rfl, fun _ => rfl, by decide, by decide⟩
  · rcases hswitch.kind with hs | hs <;> rw [hs] <;> exact ⟨rfl, nofun, by decide, by decide⟩

theorem Begins.atEnd (h : Begins v) : v.atEnd = false := beq_false_of_ne h.kind.2.2.2

theorem Begins.regap (h : Begins v) (g : Gap) : Begins (v.regap g) := by
  rcases h with hd | hif | hswitch
  · exact .declaration (Lookahead.declaration?_regap.trans hd)
  · exact .directive (View.kind_regap.trans hif)
  · refine .statement (hswitch.imp (View.kind_regap.trans ·) fun hlabel => ?_)
    rw [atStatementLabel_regap, hlabel]

/-- Where something begins, no list of items ends outside of all blocks. -/
theorem Begins.endsItems (h : Begins v) (hv : v.directives = 0) :
    Grammar.endsItems .topLevel v = false := by
  obtain ⟨hcloser, hdirective, -⟩ := h.kind
  unfold Grammar.endsItems
  rw [hv]
  split
  · next hk =>
    rw [hk] at hcloser
    cases hcloser
  all_goals rfl

theorem opens_item (h : Begins v) : Opens v (item .topLevel) := by
  have hdirective := h.kind.2.1
  refine .kind_bind ?_
  split
  · exact .bump
  · exact opens_directiveBlock
  · next hk => exact absurd (hdirective (by rw [hk]; rfl)) (by rw [hk]; decide)
  · next hk => exact absurd (hdirective (by rw [hk]; rfl)) (by rw [hk]; decide)
  · next hk => exact absurd (hdirective (by rw [hk]; rfl)) (by rw [hk]; decide)
  · next hif _ _ _ =>
    refine opens_declarationOrStatement ?_
    rcases h with hd | hk | hswitch
    · exact .inl ⟨_, hd⟩
    · exact absurd hk hif
    · exact .inr hswitch

end Grammar

namespace Parser

open Grammar (body)

variable {α : Type} {E : List Entry} {p : Parser α} {s t u : State} {a : α}

/-- Earlier trees are left alone by a program that adopts none of them. -/
theorem Fresh.proceeds_framed (h : Fresh (fun _ => False) p) (hrun : Proceeds body E p s a t)
    (trees : List Tree) : Proceeds body E p (s.framed trees []) a (t.framed trees []) := by
  induction hrun with
  | done => exact .done
  | look _ ih => exact .look (ih (h _))
  | consume _ ih =>
    refine .consume ?_
    rw [State.consume_framed]
    exact ih h
  | complain _ ih => exact .complain (ih h)
  | @group E α β adopt inner next s t u r a inside _ _ ih =>
    obtain ⟨rfl, hnext⟩ := h
    have hframed : ∀ x : State, x.framed [] [] = x := fun x => by simp [State.framed]
    have hstart := State.start_framed s trees []
    rw [hframed] at hstart
    refine .group (by rwa [hstart]) ?_
    have hfinish := State.finish_framed s t trees [] r.2
    rw [hframed] at hfinish
    rw [hfinish]
    exact ih (hnext _)
  | directive _ _ ihi ih => exact .directive (ihi h.1) (ih (h.2 _))
  | call _ _ _ _ _ => exact h.1.elim
  | stop _ _ ihi ih => exact .stop (ihi (h.1 _)) (ih (h.2 _))
  | again _ eaten _ ihi ih => exact .again (ihi (h.1 _)) eaten (ih h)

/-- What follows a look is run with what is seen. -/
theorem Proceeds.of_view_bind {f : View → Parser α} (h : Proceeds body E (view >>= f) s a t) :
    Proceeds body E (f s.view) s a t := by
  cases h with
  | look rest => exact rest

/-- A repetition ends with its first round, or goes on behind it. -/
theorem Proceeds.repeating_cases {q : Parser Bool} (h : Proceeds body E (repeating q) s () t) :
    Proceeds body E q s false t ∨
      ∃ u, Proceeds body E q s true u ∧ u.left < s.left ∧ Proceeds body E (repeating q) u () t := by
  cases h with
  | stop inside rest =>
    obtain ⟨b, u, hround, hdone⟩ := Proceeds.exists_of_andThen inside
    cases b with
    | true => cases hdone
    | false =>
      cases hdone with
      | done =>
        cases rest with
        | done => exact .inl hround
  | again inside eaten rest =>
    obtain ⟨b, u, hround, hdone⟩ := Proceeds.exists_of_andThen inside
    cases b with
    | true =>
      cases hdone with
      | done => exact .inr ⟨_, hround, eaten, rest⟩
    | false => cases hdone

end Parser

namespace Grammar

open SwiftOutline.Parser

variable {c : Cut} {i : Nat} {v : View} {scope : Scope} {k : NodeKind}

/-! ## The first item -/

/-- The word that introduces a declaration is consumed, and for an actor its name as well. -/
theorem eats_introduced {l : Lexeme} {ls : List Lexeme} (hk : isWorded k = true)
    (h : Lookahead.Introduces k (l :: ls)) (hv : v.lexemes = l :: ls) :
    Eats 0 v (declarationRest k) ∧ (l.kind = .ident → Eats 1 v (declarationRest k)) := by
  have hend : v.atEnd = false := (atWord_of_introduces (hv ▸ h)).atEnd
  refine ⟨(feeds_declarationRest hk hend).eats, fun hident => ?_⟩
  rcases h with hword | ⟨rfl, -⟩
  · rw [hident] at hword
    cases hword
  · exact .bump_bind hend eats_name.first

/-- Of lexemes that begin with the word that introduces a declaration, that word is not left, nor is
    the name behind it if the word is an identifier. -/
def PassesWord (ls : List Lexeme) (t : State) : Prop :=
  t.left < ls.length ∧ (Lookahead.headKind ls = .ident → t.left + 1 < ls.length)

/-- A declaration passes the word that introduces it. -/
theorem wlp_declaration {s : State} (hlies : s.Lies c)
    (h : Lookahead.declaration? scope s.view.lexemes = some k) :
    wlp (Cutting c) (declaration k) (fun _ t => t.reports = [] →
      PassesWord (Lookahead.skipModifiers (Lookahead.skipAttributes s.view.lexemes)) t) s := by
  have hintro := Lookahead.introduces_of_declaration? h
  have hplain := Lookahead.plainAttributes_of_forall hlies.lexemes.plain
  refine wlp_andThen (wlp_bind (wlp_mono (fun _ t ht => ?_)
    (wlp_attributes (s := s.start false) hplain)))
  refine wlp_bind (wlp_mono (fun _ u hu => ?_) (wlp_modifiers t))
  have hls : u.view.lexemes =
      Lookahead.skipModifiers (Lookahead.skipAttributes s.view.lexemes) := by rw [hu, ht]; rfl
  rw [← hls] at hintro ⊢
  cases hcons : u.view.lexemes with
  | nil =>
    rw [hcons] at hintro
    exact hintro.elim
  | cons l ls =>
    rw [hcons] at hintro
    -- `actor` is told by the name behind it, so both are consumed
    obtain ⟨heats, hactor⟩ := eats_introduced (isWorded_of_declaration? h) hintro hcons
    have hleft : u.left = (l :: ls).length := congrArg List.length hcons
    have hboth : wlp (Cutting c) (declarationRest k) (fun _ w => l.kind = .ident →
        w.left + 1 < u.left ∨ w.reports ≠ []) u := by
      by_cases hl : l.kind = .ident
      · exact wlp_mono (fun _ _ hw _ => hw) (wlp_cutting (hactor hl u rfl))
      · exact wlp_of_forall (fun _ _ h => absurd h hl) u
    refine wlp_mono (fun _ w hw hclean => ?_) (wlp_and (wlp_cutting (heats u rfl)) hboth)
    rw [PassesWord, ← hleft]
    exact ⟨hw.1.resolve_right fun hr => hr hclean,
      fun hl => (hw.2 hl).resolve_right fun hr => hr hclean⟩

/-- What is declared is told by the declaration alone. -/
theorem declaration?_cut {s t : State} (hreaches : s.Reaches t) (hbounded : t.Bounded c i)
    (h : PassesWord (Lookahead.skipModifiers (Lookahead.skipAttributes s.view.lexemes)) t) :
    Lookahead.declaration? scope (s.view.cut c).lexemes =
      Lookahead.declaration? scope s.view.lexemes := by
  obtain ⟨rest, hrest, hlength⟩ := View.lexemes_eq_cut c s.view
  have hbehind : rest.length ≤ t.left := by
    rw [hlength (Nat.le_trans hbounded.within hreaches.left_le)]
    exact hbounded.within
  obtain ⟨hlt, hactor⟩ := h
  rw [hrest] at hlt hactor
  rw [Lookahead.declaration?_front (Nat.lt_of_le_of_lt hbehind hlt) (fun hhead =>
    Nat.lt_of_le_of_lt (Nat.succ_le_succ hbehind) (hactor hhead)), ← hrest]

theorem safeAt_declared (h : Lookahead.declaration? .topLevel v.lexemes = some k) :
    SafeAt c i (fun _ => 0) anyEnd 0 v (declarationOrStatement .topLevel)
      (declarationOrStatement .topLevel) := by
  refine .view_bind ?_
  rw [h]
  refine .late (Q := fun _ s t => t.reports = [] →
      PassesWord (Lookahead.skipModifiers (Lookahead.skipAttributes s.view.lexemes)) t)
    (r := declaration k) (safeAt_declaration h) ?_ ?_
  · rintro s rfl hlies
    exact wlp_declaration hlies h
  · rintro s t - rfl - hpasses hreaches - hbounded -
    rw [declaration?_cut hreaches hbounded (hpasses hbounded.clean), h]

/-- A statement with a label consumes the label, the colon and the word behind it. -/
theorem eats_labelled (h : atStatementLabel v = true) : Eats 2 v statement := by
  obtain ⟨hname, hcolon, -, heats⟩ := words_of_atStatementLabel h
  have hbody : Eats 2 v labelledStatement := by
    refine .view_bind ?_
    rw [if_pos h]
    exact .bump_bind hname.atEnd (.bump_bind hcolon.atEnd heats)
  have hfound : Eats 2 v (node? labelledStatement) :=
    fun s hs => wlp_andThen (hbody (s.start false) hs)
  refine .kind_bind ?_
  dsimp only
  rw [kind_of_atStatementLabel h, if_neg (by decide), if_neg (by decide)]
  exact hfound.first

theorem AtSwitch.cut (h : AtSwitch v) (hin : c.behind < v.lexemes.length)
    (hlabel : atStatementLabel v = true → c.behind + 2 < v.lexemes.length) :
    AtSwitch (v.cut c) := by
  refine h.imp (fun hswitch => (View.kind_cut hin).trans hswitch) fun hlabelled => ?_
  have hin' := hlabel hlabelled
  rw [atStatementLabel, View.kind_cut hin, View.kindAt_cut (Nat.lt_of_succ_lt hin'),
    View.kindAt_cut hin']
  exact hlabelled

theorem safeAt_switched (h : AtSwitch v) (hin : c.behind < v.lexemes.length) :
    SafeAt c i (fun _ => 0) anyEnd 0 v (declarationOrStatement .topLevel)
      (declarationOrStatement .topLevel) := by
  refine .view_bind ?_
  rw [h.declaration?]
  by_cases hlabel : atStatementLabel v = true
  · refine .eaten (eats_labelled hlabel) fun hin' => ?_
    rw [(h.cut hin fun _ => hin').declaration?]
    exact safeAt_statement hin
  · rw [(h.cut hin fun hlabelled => absurd hlabelled hlabel).declaration?]
    exact safeAt_statement hin

/-- On the front part an item does the same as on the text. -/
theorem safeAt_firstItem (h : Begins v) :
    SafeAt c i (fun _ => 0) anyEnd 0 v (item .topLevel) (item .topLevel) := by
  have heats : Eats 0 v (item .topLevel) := (Opens.feeds (x := false) (opens_item h) h.atEnd).eats
  refine .eaten heats fun hin => .kind_bind' ?_
  rw [View.kind_cut hin]
  split
  · next hk => exact .bump_kind hk rfl
  · next hk => exact safeAt_directiveBlock hk
  · exact .complains .recover
  · exact .complains .recover
  · exact .complains .recover
  · next hif _ _ _ =>
    show SafeAt c i _ anyEnd 0 v (declarationOrStatement .topLevel)
      (declarationOrStatement .topLevel)
    rcases h with hd | hk | hswitch
    · exact safeAt_declared hd
    · exact absurd hk hif
    · exact safeAt_switched hswitch hin

/-- What is eaten stands before the cut. -/
theorem wlp_within {n : Nat} {p : Parser Unit} {s : State} (heats : Eats n s.view p) :
    wlp (Cutting c) p (fun _ t => t.Bounded c i → c.behind + n < s.left) s := by
  refine wlp_mono (fun _ t ht hbounded => ?_) (wlp_cutting (heats s rfl))
  have hwithin := hbounded.within
  have hlt := ht.resolve_right fun hr => hr hbounded.clean
  omega

/-- On the front part an item begins as it does on the text. -/
theorem wlp_begins_cut {s : State} (hlies : s.Lies c) (h : Begins s.view) :
    wlp (Cutting c) (item .topLevel) (fun _ t => t.Bounded c i → Begins (s.view.cut c)) s := by
  have hfed : ∀ {p : Parser Unit}, Opens s.view p → Eats 0 s.view p :=
    fun hp => (Opens.feeds (x := false) hp h.atEnd).eats
  refine wlp_kind_bind ?_
  split
  · next hk => exact absurd hk h.kind.2.2.1
  · next hk =>
    -- what told the item is consumed by it, so it stands before the cut
    refine wlp_mono (fun _ t ht hbounded => .directive ?_)
      (wlp_within (i := i) (hfed opens_directiveBlock))
    exact (View.kind_cut (ht hbounded)).trans hk
  · next hk => exact absurd (h.kind.2.1 (by rw [hk]; rfl)) (by rw [hk]; decide)
  · next hk => exact absurd (h.kind.2.1 (by rw [hk]; rfl)) (by rw [hk]; decide)
  · next hk => exact absurd (h.kind.2.1 (by rw [hk]; rfl)) (by rw [hk]; decide)
  · next hif _ _ _ =>
    show wlp (Cutting c) (declarationOrStatement .topLevel) _ s
    refine wlp_view_bind ?_
    rcases h with hd | hk | hswitch
    · rw [hd]
      refine wlp_mono (fun _ t ht hbounded => ?_)
        (wlp_and (wlp_steps _ s) (wlp_declaration hlies hd))
      exact .declaration ((declaration?_cut ht.1.1 hbounded (ht.2 hbounded.clean)).trans hd)
    · exact absurd hk hif
    · rw [hswitch.declaration?]
      show wlp (Cutting c) statement _ s
      have hlabel : wlp (Cutting c) statement (fun _ t => t.Bounded c i →
          atStatementLabel s.view = true → c.behind + 2 < s.left) s := by
        by_cases hl : atStatementLabel s.view = true
        · exact wlp_mono (fun _ _ ht hbounded _ => ht hbounded) (wlp_within (eats_labelled hl))
        · exact wlp_of_forall (fun _ _ _ h => absurd h hl) s
      refine wlp_mono (fun _ t ht hbounded => .statement ?_)
        (wlp_and (wlp_within (i := i) (hfed (opens_statement hswitch))) hlabel)
      exact hswitch.cut (ht.1 hbounded) (ht.2 hbounded)

/-! ## What an item makes -/

/-- A node is the newest element where its program ends. -/
theorem wlp_node_made {G : Outcomes} {α : Type} {p : Parser α} (s : State) :
    wlp G (node k p) (fun _ t => ∃ ts, t.built = .node k ts :: s.built) s :=
  wlp_andThen (wlp_of_forall (fun _ _ => ⟨_, rfl⟩) _)

/-- Of all statements none but a `switch`, with or without a label before it, is taken for a
    declaration. -/
theorem wlp_labelledStatement {G : Outcomes} (s : State) : wlp G labelledStatement
    (fun found _ => ∀ k, found = some k → k.isDeclared = true → AtSwitch s.view) s := by
  have hplain : ∀ {k : NodeKind}, k.isDeclared = false →
      Parser.Ends (fun found _ => ∀ k, found = some k → k.isDeclared = true → AtSwitch s.view)
        (pure (some k) : Parser (Option NodeKind)) := by
    refine fun {k} hk => .pure fun _ => ?_
    rintro k' ⟨⟩ hdeclared
    exact absurd (hk.symm.trans hdeclared) Bool.false_ne_true
  refine wlp_view_bind ?_
  split
  · next hlabel => exact wlp_of_forall (fun _ _ _ _ _ => .inr hlabel) s
  refine wlp_kind_bind ?_
  split
  case h_7 hswitch => exact wlp_of_forall (fun _ _ _ _ _ => .inl hswitch) s
  case h_8 => exact Parser.Ends.bind (fun _ => .bind fun _ => hplain (by rfl)) G s
  case h_10 => exact Parser.Ends.bind (fun _ => .bind fun _ => hplain (by rfl)) G s
  case h_14 =>
    split
    · exact Parser.Ends.bind (fun _ => hplain (by rfl)) G s
    · exact Parser.Ends.pure (fun _ => nofun) G s
  all_goals exact Parser.Ends.bind (fun _ => hplain (by rfl)) G s

/-- An item that reports nothing adds one element. A node that introduces declarations is made only
    where something of that sort begins. -/
theorem wlp_item_made (s : State) : wlp Filling (item .topLevel) (fun _ t => t.reports = [] →
    ∃ x, t.built = x :: s.built ∧ (x.nodeKind?.any NodeKind.isDeclared = true → Begins s.view))
    s := by
  have hcomplains : ∀ {p : Parser Unit}, Complains s.view p → wlp Filling p (fun _ t =>
      t.reports = [] → ∃ x, t.built = x :: s.built ∧
        (x.nodeKind?.any NodeKind.isDeclared = true → Begins s.view)) s :=
    fun hp => wlp_mono (fun _ _ ht hclean => absurd hclean ht) (hp s rfl)
  have hnode : ∀ {p : Parser Unit} {k : NodeKind}, Begins s.view →
      wlp Filling (node k p) (fun _ t => t.reports = [] → ∃ x, t.built = x :: s.built ∧
        (x.nodeKind?.any NodeKind.isDeclared = true → Begins s.view)) s := by
    refine fun hbegins => wlp_mono (fun _ t ht _ => ?_) (wlp_node_made s)
    obtain ⟨ts, hts⟩ := ht
    exact ⟨_, hts, fun _ => hbegins⟩
  refine wlp_kind_bind ?_
  split
  · next hk =>
    obtain ⟨l, ls, -, -, hconsume⟩ := State.consume_of_not_atEnd (View.atEnd_of_kind hk rfl)
    refine wlp_bump fun _ => ⟨.leaf l.token, ?_, nofun⟩
    rw [hconsume]
  · next hk => exact hnode (.directive hk)
  · exact hcomplains .recover
  · exact hcomplains .recover
  · exact hcomplains .recover
  · show wlp Filling (declarationOrStatement .topLevel) _ s
    refine wlp_view_bind ?_
    cases hd : Lookahead.declaration? .topLevel s.view.lexemes with
    | some k => exact hnode (.declaration hd)
    | none =>
      show wlp Filling statement _ s
      refine wlp_kind_bind ?_
      dsimp only
      split
      · exact hcomplains Complains.report.first
      split
      · exact hcomplains .recover
      refine wlp_bind (wlp_andThen (wlp_mono (fun found t ht => ?_)
        (wlp_labelledStatement (s.start false))))
      cases found with
      | none =>
        have hmissing : Complains (t.finish s false none).view (recover .noStatement) := .recover
        show wlp Filling (recover .noStatement) _ (t.finish s false none)
        exact wlp_mono (fun _ _ hu hclean => absurd hclean hu) (hmissing _ rfl)
      | some k => exact fun _ => ⟨_, rfl, fun hk => .statement (ht k rfl hk)⟩

/-! ## The items of a file -/

variable {E : List Entry} {s t u : State} {b : Bool}

/-- Where an item follows, a list does not end without a problem but behind it. -/
theorem proceeds_of_nextItem (h : Proceeds body E (nextItem scope) s true t)
    (hclean : t.reports = []) : Proceeds body E (item scope) s () t := by
  have hrest := h.of_view_bind
  split at hrest
  · cases hrest
  · obtain ⟨⟨⟩, u, hitem, hafter⟩ := Proceeds.exists_of_andThen hrest
    have hend := hafter.of_view_bind
    split at hend
    · have hreported : Complains u.view (recover .strayToken >>= fun _ => pure true) :=
        Complains.recover.first
      exact absurd hclean (hend.of_wlp wlp_body (hreported u rfl))
    · cases hend with
      | done => exact hitem

/-- A list that ends changes nothing. -/
theorem eq_of_nextItem (h : Proceeds body E (nextItem scope) s false t) :
    t = s ∧ (s.view.atEnd || endsItems scope s.view) = true := by
  have hstop : wlp Filling (nextItem scope) (fun found t => found = false →
      t = s ∧ (s.view.atEnd || endsItems scope s.view) = true) s := by
    refine wlp_view_bind ?_
    split
    · next hends => exact fun _ => ⟨rfl, hends⟩
    · refine wlp_bind (wlp_of_forall (fun _ u => wlp_view_bind ?_) s)
      split
      · exact wlp_bind (wlp_of_forall (fun _ _ h => by cases h) u)
      · exact fun h => by cases h
  exact h.of_wlp wlp_body hstop rfl

theorem reaches_of_proceeds {α : Type} {p : Parser α} {a : α} (h : Proceeds body E p s a t) :
    s.Reaches t :=
  h.of_wlp wlp_body (wlp_reaches p s)

/-- Items only add to what has been built. -/
theorem built_suffix_of_items (h : Proceeds body E (items .topLevel) s () u)
    (hclean : u.reports = []) : s.built <:+ u.built := by
  generalize hn : s.left = n
  induction n using Nat.strongRecOn generalizing s with
  | ind n ih =>
    rcases Proceeds.repeating_cases (q := nextItem .topLevel) h with hstop | ⟨t, hnext, hlt, hrest⟩
    · rw [(eq_of_nextItem hstop).1]
    · have hclean' := (reaches_of_proceeds hrest).reports_eq_nil hclean
      have hitem := proceeds_of_nextItem hnext hclean'
      obtain ⟨x, hx, -⟩ := hitem.of_wlp wlp_body (wlp_item_made s) hclean'
      have hsuffix := ih _ (hn ▸ hlt) hrest rfl
      rw [hx] at hsuffix
      exact (List.suffix_cons x s.built).trans hsuffix

/-- Every element that a list of items adds is made by an item, which begins where the elements
    before it end. -/
theorem exists_item_of_items {later earlier : List Tree} {x : Tree}
    (h : Proceeds body E (items .topLevel) s () u) (hclean : u.reports = [])
    (hu : u.built = later ++ x :: earlier) (hs : s.built.length ≤ earlier.length) :
    ∃ v w, Proceeds body E (item .topLevel) v () w ∧ v.built = earlier ∧ w.built = x :: earlier ∧
      s.Reaches v ∧ w.Reaches u ∧ v.view.directives = s.view.directives := by
  generalize hn : s.left = n
  induction n using Nat.strongRecOn generalizing s with
  | ind n ih =>
    rcases Proceeds.repeating_cases (q := nextItem .topLevel) h with hstop | ⟨t, hnext, hlt, hrest⟩
    · have hlength := congrArg List.length hu
      rw [(eq_of_nextItem hstop).1, List.length_append, List.length_cons] at hlength
      omega
    · have hreaches := reaches_of_proceeds hrest
      have hclean' := hreaches.reports_eq_nil hclean
      have hitem := proceeds_of_nextItem hnext hclean'
      obtain ⟨y, hy, -⟩ := hitem.of_wlp wlp_body (wlp_item_made s) hclean'
      rcases Nat.lt_or_eq_of_le hs with hlt' | heq
      · have hdirectives : t.view.directives = s.view.directives :=
          (hitem.of_wlp (wlp_body_cutting (c := ⟨0, 0⟩)) (wlp_steps _ s)).2
        obtain ⟨v, w, hvw, hv, hw, hsv, hwu, hd⟩ :=
          ih _ (hn ▸ hlt) hrest (by rw [hy]; exact hlt') rfl
        exact ⟨v, w, hvw, hv, hw, (reaches_of_proceeds hitem).trans hsv, hwu, hd.trans hdirectives⟩
      · -- both are the newest elements where that many had been built
        have hsuffix := built_suffix_of_items hrest hclean
        have hsuffix' : x :: earlier <:+ u.built := ⟨later, hu.symm⟩
        have hlength : t.built.length = (x :: earlier).length := by
          rw [hy, List.length_cons, List.length_cons, heq]
        have hsame : t.built = x :: earlier :=
          (List.suffix_of_suffix_length_le hsuffix hsuffix' (Nat.le_of_eq hlength)).eq_of_length
            hlength
        refine ⟨s, t, hitem, ?_, hsame, .refl s, hreaches, rfl⟩
        exact (List.cons.inj (hy.symm.trans hsame)).2

/-- The run of a file without problems is that of a list of items. -/
theorem items_of_file (h : Proceeds body [] file s () t) (hclean : t.reports = []) :
    ∃ E, Proceeds body E (items .topLevel) s () t := by
  obtain ⟨⟨⟩, u, hcall, hmore⟩ := Proceeds.exists_of_andThen h
  have hend : t = u ∨ t.reports ≠ [] := by
    refine hmore.of_wlp (Q := fun _ t => t = u ∨ t.reports ≠ []) wlp_body ?_
    refine wlp_repeating (I := fun t => t = u ∨ t.reports ≠ []) (.inl rfl) fun w hw => ?_
    refine wlp_view_bind ?_
    split
    · exact hw
    · have hreported : Complains w.view (do
          recover .topLevelToken
          follow' (.items .topLevel)
          pure true) := Complains.recover.first
      refine wlp_mono (fun b _ hx => ?_) (hreported w rfl)
      cases b <;> exact .inr hx
  obtain rfl := hend.resolve_right fun hr => hr hclean
  cases hcall with
  | call _ inside rest =>
    obtain ⟨⟨⟩, w, hitems, hdone⟩ := Proceeds.exists_of_andThen inside
    cases hdone with
    | done =>
      cases rest with
      | done => exact ⟨_, hitems⟩

/-- A file of a single item ends where the item does. -/
theorem file_of_item (hfile : Proceeds body [] file s () u) (hbegins : Begins s.view)
    (hs : s.view.directives = 0) (hend : t.view.atEnd = true) (hlt : t.left ≠ s.left)
    (hitem : ∀ E t', Proceeds body E (item .topLevel) s () t' → t' = t) : u = t := by
  have hstart : (s.view.atEnd || endsItems .topLevel s.view) = false := by
    rw [hbegins.atEnd, hbegins.endsItems hs]
    rfl
  -- the first round is the item, and no round follows at the end
  have hitems : ∀ {E : List Entry} {w : State}, Proceeds body E (items .topLevel) s () w →
      w = t := by
    intro E w hrounds
    rcases Proceeds.repeating_cases (q := nextItem .topLevel) hrounds with
      hstop | ⟨x, hnext, -, hrest⟩
    · exact absurd (hstart.symm.trans (eq_of_nextItem hstop).2) Bool.false_ne_true
    · have hx : x = t := by
        have hround := hnext.of_view_bind
        rw [if_neg (Bool.eq_false_iff.mp hstart)] at hround
        obtain ⟨⟨⟩, y, hy, hafter⟩ := Proceeds.exists_of_andThen hround
        obtain rfl := hitem E y hy
        have hlast := hafter.of_view_bind
        split at hlast
        · next heq => exact absurd (eq_of_beq heq) hlt
        · cases hlast with
          | done => rfl
      subst hx
      rcases Proceeds.repeating_cases (q := nextItem .topLevel) hrest with
        hstop | ⟨y, hnext', -, -⟩
      · exact (eq_of_nextItem hstop).1
      · have hround := hnext'.of_view_bind
        rw [if_pos (by rw [hend]; rfl)] at hround
        cases hround
  obtain ⟨⟨⟩, w, hcall, hmore⟩ := Proceeds.exists_of_andThen hfile
  have hw : w = t := by
    cases hcall with
    | call _ inside rest =>
      obtain ⟨⟨⟩, y, hy, hdone⟩ := Proceeds.exists_of_andThen inside
      cases hdone with
      | done =>
        cases rest with
        | done => exact hitems hy
  subst hw
  have hstop : u = w := by
    refine hmore.of_wlp (Q := fun _ t => t = w) wlp_body ?_
    refine wlp_repeating (I := fun t => t = w) rfl fun y hy => ?_
    subst hy
    refine wlp_view_bind ?_
    rw [if_pos hend]
    rfl
  exact hstop

/-! ## A declaration alone -/

/-- Lexemes at the end of which the brackets that are opened in them are closed. -/
theorem bounded_of_clean (hclean : t.reports = []) (hleft : t.left = c.behind) :
    t.Bounded c 0 := by
  refine ⟨hclean, Nat.le_of_eq hleft.symm, fun _ => ?_⟩
  have hnil : (t.view.cut c).lexemes = [] := by
    rw [View.cut, ← hleft, State.left, Nat.sub_self, List.take_zero]
  rw [hnil]
  exact .nil (Nat.le_refl 0)

/-- A node of the root that introduces declarations is parsed from its own lexemes alone, whatever
    stands before and behind them, if these can be cut off. -/
theorem parseLexemes_alone {ls pre inner rest : List Lexeme} {l : Lexeme} {endGap : Gap}
    {later earlier : List Tree} {x : Tree} (hclean : (parseLexemes ls endGap).reports = [])
    (hbuilt : (parseLexemes ls endGap).built = later ++ x :: earlier)
    (hx : x.nodeKind?.any NodeKind.isDeclared = true) (hls : ls = pre ++ (l :: inner ++ rest))
    (hpre : pre.length = (Tree.forestLeaves earlier.reverse).length)
    (hinner : (l :: inner).length = x.leaves.length)
    (hcut : Cuttable ⟨rest.length, 0⟩ (l :: inner ++ rest)) :
    parseLexemes ({ l with gap := .none } :: inner) .none = ⟨⟨[], .none, 0⟩, [x], []⟩ := by
  -- the item of the text that the node is made by
  obtain ⟨final, -, hfile, hrun⟩ := exists_proceeds_file ls endGap
  have hfinal : parseLexemes ls endGap = final := by rw [parseLexemes, hrun _ (Nat.le_refl _)]
  rw [hfinal] at hclean hbuilt
  obtain ⟨E, hitems⟩ := items_of_file hfile hclean
  obtain ⟨s, t, hitem, hs, ht, hbefore, hbehind, hdirectives⟩ :=
    exists_item_of_items hitems hclean hbuilt (Nat.zero_le _)
  have htclean := hbehind.reports_eq_nil hclean
  have hreaches := reaches_of_proceeds hitem
  have hsclean := hreaches.reports_eq_nil htclean
  -- its lexemes are those of the node
  obtain ⟨eaten, heaten, -, hleaves⟩ := hbefore.leads
  have hsls : s.view.lexemes = l :: inner ++ rest := by
    have hlength := congrArg List.length hleaves
    rw [hs] at hlength
    have hsame : pre.length = eaten.length := by
      rw [hpre, hlength]
      simp [State.initial, Tree.forestLeaves]
    exact (List.append_inj (hls.symm.trans heaten) hsame).2.symm
  obtain ⟨used, hused, -, hleaves'⟩ := hreaches.leads
  have htls : t.view.lexemes = rest := by
    have hlength := congrArg List.length hleaves'
    rw [ht, hs, List.reverse_cons, Tree.forestLeaves_append, List.length_append,
      List.length_append, List.length_map] at hlength
    have hsame : (l :: inner).length = used.length := by
      rw [hinner]
      simpa [Tree.forestLeaves] using hlength
    rw [hsls] at hused
    exact (List.append_inj hused hsame).2.symm
  -- it does the same on the front part, whose lexemes are these and no others
  let c : Cut := ⟨rest.length, 0⟩
  have hlies : s.Lies c := ⟨by rwa [hsls], Nat.zero_le _⟩
  have hbounded : t.Bounded c 0 := bounded_of_clean htclean (congrArg List.length htls)
  obtain ⟨y, hy, hbegins⟩ := hitem.of_wlp wlp_body (wlp_item_made s) htclean
  obtain rfl : x = y := (List.cons.inj (ht.symm.trans hy)).1
  have hbegins' : Begins (s.view.cut c) :=
    hitem.of_wlp wlp_body_cutting (wlp_begins_cut hlies (hbegins hx)) hbounded
  have hrepeats : Repeats c (item .topLevel) s () t :=
    (hitem.of_wlp wlp_body_cutting (safeAt_firstItem (i := 0) (hbegins hx) s rfl hlies) hbounded
      trivial).2
  have hcutview : s.view.cut c = ⟨l :: inner, .none, 0⟩ := by
    rw [View.cut, hsls, List.length_append, Nat.add_sub_cancel, List.take_left, hdirectives]
    rfl
  have hcutend : t.view.cut c = ⟨[], .none, 0⟩ := by
    have hd : t.view.directives = s.view.directives :=
      (hitem.of_wlp (wlp_body_cutting (c := c)) (wlp_steps _ s)).2
    rw [View.cut, htls, Nat.sub_self, List.take_zero, hd, hdirectives]
    rfl
  rw [hcutview] at hbegins'
  -- so does the run on these lexemes, from an empty state and whatever the first gap
  let s₀ : State := .initial ({ l with gap := .none } :: inner) .none
  obtain ⟨final', -, hfile', hrun'⟩ := exists_proceeds_file ({ l with gap := .none } :: inner) .none
  rw [parseLexemes, hrun' _ (Nat.le_refl _)]
  have hbegins₀ : Begins s₀.view := hbegins'.regap .none
  refine file_of_item (s := s₀) (t := ⟨⟨[], .none, 0⟩, [x], []⟩) hfile' hbegins₀ rfl rfl
    (Nat.zero_ne_add_one inner.length) fun E u hu => ?_
  have hregap := Opens.proceeds l.gap (opens_item hbegins₀) hbegins₀.atEnd hu
  have hframed := Fresh.proceeds_framed (fresh_item .topLevel) hregap earlier
  have hstart : (s₀.regap l.gap).framed earlier [] = s.cut c := by
    rw [State.cut, hcutview, hs, hsclean]
    rfl
  rw [hstart] at hframed
  obtain ⟨-, hend⟩ := hrepeats _ _ _ hframed
  rw [State.cut, hcutend, ht, htclean] at hend
  obtain ⟨v, built, reports⟩ := u
  simp only [State.framed, State.mk.injEq, List.append_nil] at hend
  obtain ⟨rfl, hbuilt', rfl⟩ := hend
  obtain rfl : built = [x] := (List.append_left_inj earlier).mp hbuilt'
  rfl

end Grammar

/-! ## The text of a declaration -/

open SwiftOutline.Token (significant)
open SwiftOutline.Tree (forestLeaves forestWithoutTrivia)

variable {source : String} {t : Tree} {before after : List Tree}

/-- What the parser builds for the tokens of a node of the root that introduces declarations. -/
theorem finalState_leaves_of_child (hok : (parse source).ok = true)
    (htree : (parse source).tree = .node .sourceFile (before ++ t :: after))
    (ht : t.nodeKind?.any NodeKind.isDeclared = true)
    (hlast : ∃ u ∈ t.leaves.getLast?, u.isTrivia = false)
    (hcut : Cuttable ⟨(significant (forestLeaves after)).length, 0⟩
      (Lexeme.ofTokens (lex source)).1) :
    finalState t.leaves = ⟨⟨[], .none, 0⟩, [t.withoutTrivia], []⟩ := by
  have htrivia : t.isTriviaLeaf = false := by
    cases t with
    | leaf u => cases ht
    | node k children => rfl
  have htidy : t.Tidy := tidy_of_mem_children_parse source t (by simp [htree, Tree.children])
  have hlex : lex source = forestLeaves before ++ (t.leaves ++ forestLeaves after) := by
    rw [← leaves_parse, htree, Tree.leaves, Tree.forestLeaves_append, forestLeaves]
  -- the lexemes of the text before, in and behind the node
  obtain ⟨l, inner, hnode⟩ := Lexeme.exists_ofTokensAfter (htidy.dropWhile_leaves htrivia) hlast
  have hls : (Lexeme.ofTokens (lex source)).1 =
      Lexeme.ahead .none (forestLeaves before) ++
        ({ l with gap := Lexeme.behind .none before } :: inner ++
          Lexeme.ahead .none (forestLeaves after)) := by
    rw [hlex, Lexeme.ofTokens, Lexeme.ofTokensAfter_eq, Lexeme.ofTokensAfter_eq, hnode]
    rfl
  have hcount : (l :: inner).length = t.withoutTrivia.leaves.length := by
    rw [Tree.leaves_withoutTrivia t htrivia, ← Lexeme.length_ahead .none, Lexeme.ahead, hnode]
    rfl
  have hbefore : (Lexeme.ahead .none (forestLeaves before)).length =
      (forestLeaves (forestWithoutTrivia before).reverse.reverse).length := by
    rw [List.reverse_reverse, Tree.forestLeaves_forestWithoutTrivia, Lexeme.length_ahead]
  -- what the parser has built for them
  have hbuilt : (finalState (lex source)).built =
      (forestWithoutTrivia after).reverse ++
        t.withoutTrivia :: (forestWithoutTrivia before).reverse := by
    have hroot := withoutTrivia_parse source
    rw [htree, Tree.withoutTrivia, Tree.forestWithoutTrivia_append, forestWithoutTrivia,
      if_neg (by simp [htrivia])] at hroot
    rw [← List.reverse_reverse (finalState (lex source)).built, ← (Tree.node.inj hroot).2]
    simp
  have hcut' : Cuttable ⟨(Lexeme.ahead .none (forestLeaves after)).length, 0⟩
      ({ l with gap := Lexeme.behind .none before } :: inner ++
        Lexeme.ahead .none (forestLeaves after)) := by
    rw [Lexeme.length_ahead]
    exact hcut.suffix (hls ▸ List.suffix_append _ _)
  have hreports := reports_of_ok hok
  have hfinal : finalState (lex source) =
      parseLexemes (Lexeme.ofTokens (lex source)).1 (Lexeme.ofTokens (lex source)).2 := by
    rw [finalState]
  rw [hfinal] at hbuilt hreports
  have hdeclared : t.withoutTrivia.nodeKind?.any NodeKind.isDeclared = true := by
    rw [Tree.nodeKind?_withoutTrivia]
    exact ht
  have halone := Grammar.parseLexemes_alone hreports hbuilt hdeclared hls hbefore hcount hcut'
  rw [finalState, Lexeme.ofTokens, hnode]
  exact halone

/-- A node of the root that introduces declarations is what its text alone is parsed to, if its
    lexemes can be cut off and its last token is no trivia. -/
theorem parse_text_of_child (hok : (parse source).ok = true)
    (htree : (parse source).tree = .node .sourceFile (before ++ t :: after))
    (ht : t.nodeKind?.any NodeKind.isDeclared = true)
    (hlast : ∃ u ∈ t.leaves.getLast?, u.isTrivia = false)
    (hcut : Cuttable ⟨(significant (forestLeaves after)).length, 0⟩
      (Lexeme.ofTokens (lex source)).1) :
    parse t.text = ⟨.node .sourceFile [t], []⟩ := by
  have hlex : lex source = forestLeaves before ++ (t.leaves ++ forestLeaves after) := by
    rw [← leaves_parse, htree, Tree.leaves, Tree.forestLeaves_append, forestLeaves]
  have hmem : t ∈ (parse source).tree.children := by simp [htree, Tree.children]
  have htrivia : t.isTriviaLeaf = false := by
    cases t with
    | leaf u => cases ht
    | node k children => rfl
  rw [parse, Tree.text, lex_join_of_lex hlex, parseTokens,
    finalState_leaves_of_child hok htree ht hlast hcut]
  show (⟨Tree.rootWithTrivia [t.withoutTrivia] t.leaves, []⟩ : Parse) = _
  rw [rootWithTrivia_of_mem_children_parse hmem htrivia]

end SwiftOutline
