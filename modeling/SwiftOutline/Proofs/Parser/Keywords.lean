/-
  SwiftOutline.Proofs.Parser.Keywords

  What the nodes of declarations begin with. Attributes without clauses are
  consumed as far as they are skipped ahead, so what stands behind the attributes
  and modifiers of a declaration is the word that has decided on its kind; the
  rest is put behind that. A `switch` with a label has the label in front.
-/
import SwiftOutline.Proofs.Parser.Apart
import SwiftOutline.Proofs.Parser.Filled
import SwiftOutline.Proofs.Parser.Introduced
import SwiftOutline.Proofs.Parser.Switches
import SwiftOutline.Proofs.Tree.Everywhere

namespace SwiftOutline

namespace NodeKind

/-- Whether nodes of a kind are clauses of attributes. -/
def isAttributeClause : NodeKind → Bool
  | .genericArgumentClause | .attributeArguments => true
  | _ => false

/-- Whether nodes of a kind are lists of attributes or modifiers. -/
def isSpecifierList : NodeKind → Bool
  | .attributeList | .modifierList => true
  | _ => false

end NodeKind

namespace Tree

/-- Whether a tree that is an attribute has no clause among its children. -/
def IsBare (t : Tree) : Prop := t.nodeKind? = some .attributeUse →
  ∀ u ∈ t.children, u.nodeKind?.any NodeKind.isAttributeClause = false

/-- Whether the attributes in the lists among some trees have no clauses. -/
def NoClauses (ts : List Tree) : Prop :=
  ∀ x ∈ ts, x.nodeKind? = some .attributeList → ∀ u ∈ x.children, u.IsBare

/-- Whether a tree is a list of attributes or modifiers. -/
def isSpecifierList (t : Tree) : Bool := t.nodeKind?.any NodeKind.isSpecifierList

/-- Whether trees begin as a node of kind `k` does behind its attributes and modifiers: with the
    word that introduces it, or with a label. -/
inductive Begins : NodeKind → List Tree → Prop where
  | word {k : NodeKind} {t : Token} {rest : List Tree} (word : t.kind.introduces? = some k) :
      Begins k (.leaf t :: rest)
  | actor {t : Token} {rest : List Tree} (kind : t.kind = .ident) (text : t.text = "actor") :
      Begins .actorDecl (.leaf t :: rest)
  | switch {t : Token} {rest : List Tree} (word : t.kind = .kwSwitch) :
      Begins .switchExpr (.leaf t :: rest)
  | labelled {l c t : Token} {rest : List Tree} (label : l.kind = .ident)
      (colon : c.kind = .colon) (word : t.kind = .kwSwitch) :
      Begins .switchExpr (.leaf l :: .leaf c :: .leaf t :: rest)
  | conditional {t : Token} {ts rest : List Tree} (word : t.kind = .poundIf) :
      Begins .ifConfigDecl (.node .ifConfigClause (.leaf t :: ts) :: rest)

/-- Whether trees are `front` with attributes and modifiers before it. -/
def Fronts (front ts : List Tree) : Prop :=
  ∃ lists, ts = lists ++ front ∧ ∀ x ∈ lists, x.isSpecifierList = true

theorem Fronts.refl (ts : List Tree) : Fronts ts ts := 
  ⟨[], (List.nil_append ts).symm, fun _ hx => absurd hx List.not_mem_nil⟩

/-- If no attribute of a declaration has a clause, the word that introduces it comes first behind
    its attributes and modifiers. -/
def Opened (k : NodeKind) (children : List Tree) : Prop :=
  k.isDeclared = true → NoClauses children → ∃ front, Fronts front children ∧ Begins k front

end Tree

namespace Grammar

open SwiftOutline.Parser
open SwiftOutline.Lookahead (PlainAttribute PlainAttributes)

variable {call : Rule → State → Bool × State} {s t : State}

theorem exists_lexemes_of_kind {k : TokenKind} (h : s.view.kind = k) (hk : k ≠ .eof) :
    ∃ l ls, s.view.lexemes = l :: ls ∧ l.kind = k := by
  rw [View.kind_eq] at h
  cases hs : s.view.lexemes with
  | nil =>
    rw [hs] at h
    exact absurd h.symm hk
  | cons l ls =>
    rw [hs] at h
    exact ⟨l, ls, rfl, h⟩

/-! ## Attributes without clauses -/

/-- The clauses of an attribute are among what has been built. -/
theorem seesJoined_of_clauses (h : ∀ x ∈ ((do joinedGenericArguments; joinedAttributeArguments :
      Parser Unit).run call t).2.built, x.nodeKind?.any NodeKind.isAttributeClause = false) :
    Lookahead.seesJoined .lt t.view.lexemes = false ∧
      Lookahead.seesJoined .lParen t.view.lexemes = false := by
  have hon : BuildsOn call joinedAttributeArguments :=
    buildsOn_of_fresh (by simp [joinedAttributeArguments, attributeArguments])
  rw [run_bind, joinedGenericArguments, run_seesJoined_bind, View.seesJoined_eq (by decide),
    run_ite] at h
  cases hlt : Lookahead.seesJoined .lt t.view.lexemes with
  | true =>
    have hnode : ∃ ts, (genericArguments.run call t).2.built =
        .node .genericArgumentClause ts :: t.built := by
      rw [genericArguments]
      exact built_node _ _ t
    obtain ⟨ts, hts⟩ := hnode
    rw [hlt, if_pos rfl] at h
    have hmem : Tree.node .genericArgumentClause ts ∈ (genericArguments.run call t).2.built :=
      hts ▸ List.mem_cons_self
    have hlater := (hon (genericArguments.run call t).2).mem_built hmem
    have hclause := h _ hlater
    cases hclause
  | false =>
    rw [hlt, if_neg Bool.false_ne_true, run_pure, joinedAttributeArguments, run_seesJoined_bind,
      View.seesJoined_eq (by decide), run_ite] at h
    refine ⟨rfl, ?_⟩
    cases hparen : Lookahead.seesJoined .lParen t.view.lexemes with
    | true =>
      have hnode : ∃ ts, (attributeArguments.run call t).2.built =
          .node .attributeArguments ts :: t.built := by
        rw [attributeArguments]
        exact built_node _ _ t
      obtain ⟨ts, hts⟩ := hnode
      rw [hparen, if_pos rfl] at h
      dsimp only at h
      have hclause := h (.node .attributeArguments ts) (hts ▸ List.mem_cons_self)
      cases hclause
    | false => rfl

/-- The clauses of an attribute are parsed behind its name. -/
theorem exists_attributeName (hat : Lookahead.headKind s.view.lexemes = .atSign) :
    ∃ t : State, (attributeUse.run call s).2.built =
      .node .attributeUse ((do joinedGenericArguments; joinedAttributeArguments :
        Parser Unit).run call t).2.built.reverse :: s.built ∧
      t.view.lexemes = Lookahead.skipAttributeName s.view.lexemes := by
  obtain ⟨l, ls, hl, hl'⟩ := exists_lexemes_of_kind (View.kind_eq.trans hat) (by decide)
  have hbump : Passes call bump () (l :: ls) ls := .bump (by rw [hl']; decide)
  obtain ⟨t, ht, hls⟩ := hbump.exists_run (s := s.start false) hl
  rw [attributeUse, run_node, run_bind_of_run ht, run_kind_bind, View.kind_eq, hls, hl,
    Lookahead.skipAttributeName, List.drop_one, List.tail_cons]
  split
  · next hname =>
    cases ls with
    | nil => cases hname
    | cons n ls =>
      have hbump : Passes call bump () (n :: ls) ls :=
        .bump (Lexeme.isWord_of_isNameLike hname).plain.2.2
      have hmembers : Passes call (repeating attributeMember) () ls (Lookahead.skipMembers ls) :=
        .repeating (rounds_attributeMember ls)
      obtain ⟨u, hu, hrest⟩ := hbump.exists_run hls
      obtain ⟨w, hw, hskip⟩ := hmembers.exists_run hrest
      rw [run_bind_of_run hu, run_bind_of_run hw]
      exact ⟨w, rfl, hskip⟩
  · rw [run_bind, run_report]
    exact ⟨t.complain .noAttributeName, rfl, hls⟩

variable (call) in
/-- An attribute without clauses is plain. -/
theorem plainAttribute_of_isBare (hat : Lookahead.headKind s.view.lexemes = .atSign) :
    ∃ ts, (attributeUse.run call s).2.built = .node .attributeUse ts :: s.built ∧
      ((Tree.node .attributeUse ts).IsBare → PlainAttribute s.view.lexemes) := by
  obtain ⟨t, ht, hname⟩ := exists_attributeName (s := s) hat
  refine ⟨_, ht, fun hbare => ?_⟩
  have hclauses := seesJoined_of_clauses fun x hx => hbare rfl x (List.mem_reverse.mpr hx)
  rw [hname] at hclauses
  exact ⟨hat, hclauses.1, fun h => absurd h (by simp [hclauses.2])⟩

variable (call) in
/-- If the attributes that come next have been built without clauses, they are plain. -/
theorem plainAttributes_of_rounds {n : Nat} (hn : s.view.lexemes.length < n)
    (h : ∀ x ∈ (roundsOf (nextAttribute.run call) n s).built, x.IsBare) :
    PlainAttributes s.view.lexemes := by
  induction n generalizing s with
  | zero => exact absurd hn (Nat.not_lt_zero _)
  | succ n ih =>
    rw [roundsOf, nextAttribute, run_sees_bind, View.kind_eq, run_ite] at h
    by_cases hat : Lookahead.headKind s.view.lexemes = .atSign
    · obtain ⟨ts, hbuilt, hplain⟩ := plainAttribute_of_isBare call hat
      rw [if_pos (beq_iff_eq.mpr hat), run_bind, run_pure] at h
      dsimp only at h
      rw [if_pos rfl] at h
      have hon : BuildsOn call nextAttribute :=
        buildsOn_of_fresh (by simp [nextAttribute, attributeUse])
      have hmem : Tree.node .attributeUse ts ∈ (attributeUse.run call s).2.built :=
        hbuilt ▸ List.mem_cons_self
      have hfirst := hplain (h _ ((hon.roundsOf n (attributeUse.run call s).2).mem_built hmem))
      have hrest : (attributeUse.run call s).2.view.lexemes =
          Lookahead.skipAttribute s.view.lexemes := (passes_attributeUse hfirst).lexemes_eq
      have hlt : (Lookahead.skipAttribute s.view.lexemes).length < s.view.lexemes.length :=
        Lookahead.length_skipAttribute_lt (by rw [hat]; decide)
      refine .cons hfirst (hrest ▸ ih ?_ h)
      rw [hrest]
      omega
    · exact .nil hat

variable (call) in
theorem plainAttributes_of_isBare
    (h : ∀ x ∈ (attributes.run call (s.start false)).2.built, ∀ u ∈ x.children, u.IsBare) :
    PlainAttributes s.view.lexemes := by
  by_cases hat : Lookahead.headKind s.view.lexemes = .atSign
  · have hview : (s.start false).view.kind = .atSign := View.kind_eq.trans hat
    rw [attributes, run_sees_bind, hview, run_ite, if_pos (by decide), run_node, run_repeating] at h
    refine plainAttributes_of_rounds call (s := (s.start false).start false)
      (Nat.lt_succ_self _) fun u hu => ?_
    exact h _ List.mem_cons_self u (List.mem_reverse.mpr hu)
  · exact .nil hat

/-! ## What is parsed behind that -/

/-- The branches behind the first one. -/
def laterBranches (scope : Scope) : Parser Unit :=
  repeating do
    match ← kind with
    | .poundElseif | .poundElse =>
      directiveBranch scope
      pure true
    | _ => pure false

/-- What a block of branches is made of. -/
def branches (scope : Scope) : Parser Unit := do
  inDirective do
    directiveBranch scope
    laterBranches scope
  require .poundEndif .noEndif

theorem directiveBlock_eq (scope : Scope) :
    directiveBlock scope = node .ifConfigDecl (branches scope) := rfl

section Outer

variable (houter : ∀ r : Rule, r.isOuter = true → ∀ s : State, s.Adds (fun _ => True) (call r s).2)

include houter

/-- What has been built when the word of a declaration is consumed stays in front of the rest. -/
theorem built_of_bump {p : Parser Unit} (hp : Fresh (fun r => r.isOuter = true) p) {l : Lexeme}
    {ls : List Lexeme} (hs : s.view.lexemes = l :: ls) (hl : l.kind ≠ .eof) :
    ∃ rest, ((do bump; p : Parser Unit).run call s).2.built.reverse =
      s.built.reverse ++ Tree.leaf l.token :: rest := by
  have hconsume : s.consume.built = Tree.leaf l.token :: s.built := by
    rw [State.consume, hs]
    simp [hl]
  obtain ⟨new, hnew, -⟩ := hp.buildsOn houter s.consume
  refine ⟨new.reverse, ?_⟩
  rw [run_bind, run_bump, hnew, hconsume]
  simp

omit houter in
theorem adds_attributes :
    Adds (fun x => x.nodeKind? = some .attributeList) call attributes :=
  .bind .sees fun _ => .ite (.node fun _ => rfl) .pure

omit houter in
theorem adds_modifiers : Adds (fun x => x.nodeKind? = some .modifierList) call modifiers :=
  .bind .view fun _ => .ite (.node fun _ => rfl) .pure

omit houter in
/-- In front of the word of a declaration there are lists only. -/
theorem isSpecifierList_of_mem_introduced :
    ∀ x ∈ (introduced call s).built, x.isSpecifierList = true := by
  have hlists : Adds (fun x => x.isSpecifierList = true) call
      (do attributes; modifiers : Parser Unit) := by
    refine .bind (fun s => (adds_attributes s).mono fun x hx => ?_) fun _ s =>
      (adds_modifiers s).mono fun x hx => ?_
    · rw [Tree.isSpecifierList, hx]
      rfl
    · rw [Tree.isSpecifierList, hx]
      rfl
  exact (hlists (s.start false)).forall_built

/-- What a declaration is made of begins with the word that has decided on its kind, unless an
    attribute has a clause. -/
theorem opened_declaration {scope : Scope} {k : NodeKind}
    (hdecl : Lookahead.declaration? scope s.view.lexemes = some k) :
    Tree.Opened k ((declarationRest k).run call (introduced call s)).2.built.reverse := by
  intro _ hclauses
  obtain ⟨p, hp, hfresh⟩ := exists_declarationRest hdecl
  rw [hp] at hclauses ⊢
  have hplain : Lookahead.PlainAttributes s.view.lexemes := by
    refine plainAttributes_of_isBare call fun x hx => hclauses x ?_ ?_
    · -- what has been built of the attributes is there still
      have hmodifiers : x ∈ (introduced call s).built := by
        rw [introduced, run_bind]
        exact (adds_modifiers _).mem_built hx
      have hrest : BuildsOn call (do bump; p : Parser Unit) :=
        .bind (.bump fun _ => trivial) fun _ => hfresh.buildsOn houter
      exact List.mem_reverse.mpr ((hrest _).mem_built hmodifiers)
    · exact (adds_attributes (s.start false)).forall_built x hx
  have hword := Lookahead.introduces_of_declaration? hdecl
  have hahead : (introduced call s).view.lexemes = _ := lexemes_introduced hplain
  rw [← hahead] at hword
  cases hlexemes : (introduced call s).view.lexemes with
  | nil =>
    rw [hlexemes] at hword
    exact hword.elim
  | cons l ls =>
    rw [hlexemes] at hword
    have hl : l.kind ≠ .eof := by
      intro heof
      rcases hword with hword | ⟨-, hkind, -⟩
      · rw [heof] at hword
        cases hword
      · rw [heof] at hkind
        cases hkind
    obtain ⟨rest, hbuilt⟩ := built_of_bump houter hfresh hlexemes hl
    refine ⟨_, ⟨_, hbuilt, fun x hx => ?_⟩, ?_⟩
    · exact isSpecifierList_of_mem_introduced x (List.mem_reverse.mp hx)
    · rcases hword with hword | ⟨rfl, hkind, htext, -⟩
      · exact .word hword
      · exact .actor hkind htext

/-- What a `switch` is made of begins with the word. -/
theorem built_switchBody (hs : s.view.kind = .kwSwitch) :
    ∃ (t : Token) (rest : List Tree),
      (switchBody.run call s).2.built.reverse = s.built.reverse ++ .leaf t :: rest ∧
        t.kind = .kwSwitch := by
  have hfresh : Fresh (fun r => r.isOuter = true) (do
      follow' (.expr .condition)
      if ← expect .lBrace .noSwitchBody then
        follow' (.items .switchCases)
        require .rBrace .openSwitch) := by simp
  obtain ⟨l, ls, hlexemes, hl⟩ := exists_lexemes_of_kind hs (by decide)
  obtain ⟨rest, hbuilt⟩ := built_of_bump houter hfresh hlexemes (by rw [hl]; decide)
  exact ⟨l.token, rest, hbuilt, hl⟩

/-- What a branch is made of begins with the directive. -/
theorem built_directiveBranch (scope : Scope) (hs : s.view.kind = .poundIf) :
    ∃ t ts, ((directiveBranch scope).run call s).2.built =
      .node .ifConfigClause (.leaf t :: ts) :: s.built ∧ t.kind = .poundIf := by
  have hfresh : Fresh (fun r => r.isOuter = true) (do
      directiveCondition
      follow' (.items scope)) := by simp [directiveCondition]
  obtain ⟨l, ls, hlexemes, hl⟩ := exists_lexemes_of_kind hs (by decide)
  obtain ⟨rest, hbuilt⟩ := built_of_bump (s := s.start false) houter hfresh hlexemes
    (by rw [hl]; decide)
  refine ⟨l.token, rest, ?_, hl⟩
  have hview : (s.start false).view.kind = .poundIf := hs
  rw [directiveBranch, run_node, run_sees_bind, hview]
  show Tree.node .ifConfigClause ((do bump; directiveCondition; follow' (.items scope) :
    Parser Unit).run call (s.start false)).2.built.reverse :: s.built = _
  rw [hbuilt]
  rfl

/-- A block of branches begins with its first branch. -/
theorem begins_branches (scope : Scope) (hs : s.view.kind = .poundIf) (hnil : s.built = []) :
    Tree.Begins .ifConfigDecl ((branches scope).run call s).2.built.reverse := by
  have hlater : BuildsOn call (laterBranches scope) := by
    refine .repeating (.bind .kind fun k => ?_)
    split
    · exact .bind (.node fun _ => trivial) fun _ => .pure
    · exact .bind (.node fun _ => trivial) fun _ => .pure
    · exact .pure
  have hrequire : BuildsOn call (require .poundEndif .noEndif) := .require fun _ => trivial
  obtain ⟨t, ts, hfirst, ht⟩ := built_directiveBranch (s := s.withDirectives (s.view.directives + 1))
    houter scope hs
  generalize hu : ((directiveBranch scope).run call
    (s.withDirectives (s.view.directives + 1))).2 = u at hfirst
  have hon : u.Adds (fun _ => True) ((branches scope).run call s).2 := by
    rw [branches, run_bind, run_inDirective, run_bind, hu]
    dsimp only
    obtain ⟨new, hnew, -⟩ :=
      hrequire (((laterBranches scope).run call u).2.withDirectives s.view.directives)
    exact (hlater u).trans ⟨new, hnew, fun _ _ => trivial⟩
  obtain ⟨new, hnew, -⟩ := hon
  have hbuilt : s.built = (s.withDirectives (s.view.directives + 1)).built := rfl
  rw [hnew, hfirst, ← hbuilt, hnil, List.reverse_append]
  exact .conditional ht

/-- A `switch` with a label begins with the label. -/
theorem begins_labelled (hlabel : atStatementLabel s.view = true) (hnil : s.built = [])
    (hs : s.consume.consume.view.kind = .kwSwitch) : Tree.Begins .switchExpr
      ((do bump; bump; switchBody : Parser Unit).run call s).2.built.reverse := by
  simp only [atStatementLabel, View.kind_eq, View.kindAt_eq, Bool.and_eq_true, beq_iff_eq] at hlabel
  obtain ⟨⟨hl, hc⟩, -⟩ := hlabel
  match hlexemes : s.view.lexemes, hl, hc with
  | l :: c :: ls, hl, hc =>
    have hl : l.kind = .ident := hl
    have hc : c.kind = .colon := hc
    have hbuilt : s.consume.consume.built = [.leaf c.token, .leaf l.token] := by
      simp [State.consume, hlexemes, hl, hc, hnil]
    obtain ⟨t, rest, hswitch, ht⟩ := built_switchBody houter hs
    rw [run_bind, run_bind, run_bump, run_bump, hswitch, hbuilt]
    exact .labelled hl hc ht

end Outer

/-! ## Files -/

/-- Whether nodes of a kind are no declarations. -/
def isUndeclared (k : NodeKind) : Bool := !k.isDeclared

instance : HasInner (Forms.of (NodeKind.Among isUndeclared)) where
  node {_ _ k _} h := by cases k <;> first | rfl | exact absurd h (by decide)
  argument _ := rfl
  name _ := rfl
  specifiers := rfl
  rule _ := trivial

instance : HasTypes (Forms.of (NodeKind.Among isUndeclared)) where
  type {_ _ k _} h := by cases k <;> first | rfl | exact absurd h (by decide)

instance : HasBlocks (Forms.of (NodeKind.Among isUndeclared)) where
  block := rfl

/-- What all rules do to the beginnings of declarations. -/
def keepingOpened : Parser.Kept :=
  State.keepingEverywhere Tree.Opened (NodeKind.Among isUndeclared) fun k _ hk hdeclared => by
    rw [NodeKind.Among, isUndeclared, hdeclared] at hk
    cases hk

section Rules

variable (hcall : ∀ r s, keepingOpened.rel s (call r s).2)
  (houter : ∀ r : Rule, r.isOuter = true → ∀ s : State, s.Adds (fun _ => True) (call r s).2)

include hcall

theorem opened_of_makes {α : Type} {p : Parser α}
    (h : Makes (NodeKind.Among isUndeclared) p fun _ => True) : keepingOpened.By call p :=
  Makes.by (K := keepingOpened) hcall h

include houter

theorem opened_switch : SwitchKept keepingOpened call where
  plain s hk hs := by
    have hinside : keepingOpened.By call switchBody := opened_of_makes hcall (by simp [switchBody])
    obtain ⟨t, rest, hbuilt, ht⟩ := built_switchBody (s := s.start false) houter hk
    rw [switchExpr, run_node]
    refine hs.finish (hinside _ (hs.start false)) fun k hk' => ?_
    obtain rfl := Option.some.inj hk'
    rw [hbuilt]
    exact fun _ _ => ⟨_, .refl _, .switch ht⟩
  labelled s hlabel hk hs := by
    have hinside : keepingOpened.By call (do bump; bump; switchBody : Parser Unit) :=
      opened_of_makes hcall (by simp [switchBody])
    have hbegins := begins_labelled (s := s.start false) houter hlabel rfl hk
    rw [run_node]
    refine hs.finish (hinside _ (hs.start false)) fun k hk' => ?_
    obtain rfl := Option.some.inj hk'
    exact fun _ _ => ⟨_, .refl _, hbegins⟩

theorem opened_directiveBlock (scope : Scope) {s : State} (hk : s.view.kind = .poundIf) :
    keepingOpened.rel s ((directiveBlock scope).run call s).2 := by
  intro hs
  have hinside : keepingOpened.By call (branches scope) := by
    refine opened_of_makes hcall ?_
    simp +decide [branches, laterBranches, directiveBranch]
    intro v
    split <;> simp +decide
  have hbegins := begins_branches (s := s.start false) houter scope hk rfl
  rw [directiveBlock_eq, run_node]
  refine hs.finish (hinside _ (hs.start false)) fun k hk' => ?_
  obtain rfl := Option.some.inj hk'
  exact fun _ _ => ⟨_, .refl _, hbegins⟩

theorem keeps_declaration {scope : Scope} {k : NodeKind} {s : State}
    (hk : Lookahead.declaration? scope s.view.lexemes = some k) :
    keepingOpened.rel s ((declaration k).run call s).2 := by
  intro hs
  have hfront : keepingOpened.By call (do attributes; modifiers : Parser Unit) :=
    opened_of_makes hcall (by simp)
  have hrest : keepingOpened.By call (declarationRest k) := opened_of_makes hcall (by simp)
  rw [run_declaration]
  refine hs.finish (hrest _ (hfront _ (hs.start false))) fun k' hk' => ?_
  obtain rfl := Option.some.inj hk'
  exact opened_declaration houter hk

theorem keeps_items (scope : Scope) : keepingOpened.By call (items scope) := by
  refine by_items (fun p => ?_) (fun s => opened_directiveBlock hcall houter scope) (fun _ => ?_)
    fun _ => ?_
  · exact opened_of_makes hcall (by simp +decide)
  · refine opened_of_makes hcall ?_
    simp +decide [switchCase]
    intro v
    split <;> simp +decide
  · exact (opened_switch hcall houter).by_declarationOrStatement
      (F := Forms.of (NodeKind.Among isUndeclared)) (keepingOpened.allows hcall)
      fun s k => keeps_declaration hcall houter

end Rules

theorem opened_runRule (depth : Nat) (r : Rule) (s : State) :
    keepingOpened.rel s (runRule depth r s).2 := by
  induction depth generalizing r s with
  | zero => exact keepingOpened.refl s
  | succ depth ih =>
    have houter (r : Rule) (hr : r.isOuter = true) : ∀ s : State, s.Adds _ _ :=
      adds_runRule hr depth
    exact (opened_switch ih houter).by_body (F := Forms.of (NodeKind.Among isUndeclared))
      (keepingOpened.allows ih) (fun scope _ => keeps_items ih houter scope) s

theorem opened_parseLexemes (lexemes : List Lexeme) (endGap : Gap) :
    (parseLexemes lexemes endGap).Everywhere Tree.Opened :=
  opened_of_makes (opened_runRule _) (p := file) (by simp) _
    (nofun : ∀ x ∈ [], Tree.Everywhere _ x)

end Grammar

/-- In the tree of a text, all nodes of declarations begin so. -/
theorem opened_parse (source : String) : (parse source).tree.Everywhere
    fun k children => Tree.Opened k (Tree.forestWithoutTrivia children) :=
  everywhere_parse (fun _ _ => id) (fun _ => nofun) (Grammar.opened_parseLexemes _ _)

end SwiftOutline
