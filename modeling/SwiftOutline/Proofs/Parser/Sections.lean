/-
  SwiftOutline.Proofs.Parser.Sections

  Where the sections of a `switch` stand. They are made in the list of a `switch`
  and nowhere else, and an item of such a list that is none is set aside or is
  conditional compilation, the branches of which are such lists again. So there is
  nothing but conditional compilation between a section and its `switch`.
-/
import SwiftOutline.Proofs.Parser.Members
import SwiftOutline.Proofs.Parser.Switches

namespace SwiftOutline

/-- Whether nodes of a kind are blocks of conditional compilation or their branches. -/
def NodeKind.isConditional : NodeKind → Bool
  | .ifConfigDecl | .ifConfigClause => true
  | _ => false

/-! ## Trees -/

namespace Tree

/-- Whether a tree has its place in a `switch` only: a section, or conditional compilation with a
    section in it. -/
inductive WantsSwitch : Tree → Prop where
  | case {ts : List Tree} : WantsSwitch (.node .switchCase ts)
  | conditional {k : NodeKind} {ts : List Tree} {t : Tree} (conditional : k.isConditional = true)
      (mem : t ∈ ts) (inside : WantsSwitch t) : WantsSwitch (.node k ts)

/-- What has its place in a `switch` only stands there, or in conditional compilation. -/
def Owned (k : NodeKind) (children : List Tree) : Prop :=
  k ≠ .switchExpr → k.isConditional = false → ∀ t ∈ children, ¬ t.WantsSwitch

/-- Whether nothing in a tree, and not the tree either, has its place in a `switch` that is not
    there. -/
structure Settled (t : Tree) : Prop where
  here : ¬ t.WantsSwitch
  inside : t.Everywhere Owned

variable {t : Tree} {k : NodeKind} {children : List Tree}

theorem settled_leaf (t : Token) : Settled (.leaf t) := ⟨nofun, .leaf⟩

/-- Nodes other than sections are settled if their children are. -/
theorem settled_node (hk : k ≠ .switchCase) (h : ∀ t ∈ children, t.Settled) :
    Settled (.node k children) := by
  refine ⟨fun hwants => ?_, .node (fun _ _ t ht => (h t ht).here) fun t ht => (h t ht).inside⟩
  cases hwants with
  | case => exact hk rfl
  | conditional _ mem inside => exact (h _ mem).here inside

theorem settled_switch (h : ∀ t ∈ children, t.Everywhere Owned) :
    Settled (.node .switchExpr children) := by
  refine ⟨fun hwants => ?_, .node (fun hk => absurd rfl hk) h⟩
  cases hwants with
  | conditional hk => exact absurd hk (by decide)

theorem WantsSwitch.exists_nodeKind (h : t.WantsSwitch) :
    ∃ k, t.nodeKind? = some k ∧ (k = .switchCase ∨ k.isConditional = true) := by
  cases h with
  | case => exact ⟨_, rfl, .inl rfl⟩
  | conditional hk => exact ⟨_, rfl, .inr hk⟩

theorem WantsSwitch.of_nodeKind? (h : t.nodeKind? = some .switchCase) : t.WantsSwitch := by
  cases t with
  | leaf => exact nomatch h
  | node k children => exact Option.some.inj h ▸ .case

theorem WantsSwitch.of_mem_children {u : Tree} (hk : t.nodeKind? = some k)
    (hcond : k.isConditional = true) (hu : u ∈ t.children) (h : u.WantsSwitch) :
    t.WantsSwitch := by
  cases t with
  | leaf => exact nomatch hk
  | node k' children => exact .conditional (Option.some.inj hk ▸ hcond) hu h

theorem WantsSwitch.withoutTrivia (h : t.WantsSwitch) : t.withoutTrivia.WantsSwitch := by
  induction h with
  | case => exact .case
  | conditional hk mem inside ih =>
    rcases leaf_or_mem_forestWithoutTrivia mem with ⟨u, rfl⟩ | hmem
    · exact nomatch inside
    · exact .conditional hk hmem ih

theorem owned_of_withoutTrivia (h : Owned k (forestWithoutTrivia children)) :
    Owned k children := by
  intro hswitch hk t ht hwants
  rcases leaf_or_mem_forestWithoutTrivia ht with ⟨u, rfl⟩ | hmem
  · exact nomatch hwants
  · exact h hswitch hk _ hmem hwants.withoutTrivia

end Tree

namespace Grammar

open SwiftOutline.Parser
open SwiftOutline.Tree (Owned Settled)

variable {call : Rule → State → Bool × State}

/-! ## What is kept -/

/-- What all rules do but that for the list of a `switch`. -/
def keepingSettled : Parser.Kept :=
  State.keepingAll Settled (· ≠ .switchCase) Tree.settled_leaf fun _ _ => Tree.settled_node

/-- What the rule for the list of a `switch` does. -/
def keepingOwned : Parser.Kept :=
  State.keepingEverywhere Owned (fun k => k.isConditional = true) fun _ _ hk _ hcond =>
    absurd hk (by simp [hcond])

/-- What is admitted outside of the list of a `switch`. -/
def settledForms : Forms where
  node _ k _ := k ≠ .switchCase
  rule r := r ≠ .items .switchCases

@[simp] theorem node_settledForms {α : Type} {adopt : Bool} {k : NodeKind} {p : Parser α} :
    settledForms.node adopt k p ↔ k ≠ .switchCase := Iff.rfl

@[simp] theorem rule_settledForms {r : Rule} :
    settledForms.rule r ↔ r ≠ .items .switchCases := Iff.rfl

instance : HasInner settledForms where
  node h hk := by subst hk; exact absurd h (by decide)
  argument _ hk := nomatch hk
  name _ hk := nomatch hk
  specifiers hk := nomatch hk
  rule h := h

instance : HasTypes settledForms where
  type h hk := by subst hk; exact absurd h (by decide)

instance : Adopts settledForms := ⟨trivial⟩

instance : HasBlocks settledForms where
  block hk := nomatch hk

/-- How rules that have been followed leave what is built. -/
structure SectionsKept (call : Rule → State → Bool × State) : Prop where
  others : ∀ r, r ≠ .items .switchCases → ∀ s, keepingSettled.rel s (call r s).2
  sections : ∀ s, keepingOwned.rel s (call (.items .switchCases) s).2

theorem SectionsKept.allows (h : SectionsKept call) :
    keepingSettled.Allows call settledForms where
  node hk hbody := keepingSettled.finish hbody fun _ hk' => Option.some.inj hk' ▸ hk
  rule hr := h.others _ hr

theorem allows_bare : keepingOwned.Allows call .bare := ⟨False.elim, False.elim⟩

/-- A node of whatever kind, made of what is settled. -/
theorem owned_node {α : Type} {p : Parser α} (hp : keepingSettled.By call p) (k : NodeKind) :
    keepingOwned.By call (node k p) := by
  intro s hs
  rw [run_node]
  have hinside : ((p.run call (s.start false)).2).All Settled := hp _ nofun
  refine State.All.node hs (.node (fun _ _ t ht => ?_) fun t ht => ?_)
  · exact (hinside t (List.mem_reverse.mp ht)).here
  · exact (hinside t (List.mem_reverse.mp ht)).inside

/-! ## The list of a `switch` -/

namespace SectionsKept

variable (h : SectionsKept call)

include h

theorem by_recover (p : Problem) : keepingOwned.By call (recover p) := by
  have haside : keepingOwned.By call (node .unexpected bumpBalanced) :=
    owned_node (h.allows.by (P := fun _ => True) (by simp)) _
  have hreport : keepingOwned.By call (report p) := allows_bare.by (P := fun _ => True) (by simp)
  have hview : keepingOwned.By call view := keepingOwned.refl
  exact hreport.bind fun _ => hview.bind fun _ => .ite .pure haside

theorem by_directiveBranch : keepingOwned.By call (directiveBranch .switchCases) := by
  have hplain {α : Type} {p : Parser α} (hp : Makes .bare p fun _ => True) :
      keepingOwned.By call p := allows_bare.by hp
  have hcondition : keepingOwned.By call directiveCondition :=
    owned_node (h.allows.by (P := fun _ => True) (by simp)) _
  have hitems : keepingOwned.By call (follow' (.items .switchCases)) := h.sections
  refine .node rfl (.bind (hplain (by simp)) fun _ => .bind (hplain (by simp)) fun _ => ?_)
  exact .ite hitems (.bind hcondition fun _ => hitems)

theorem by_directiveBlock : keepingOwned.By call (directiveBlock .switchCases) := by
  have hplain {α : Type} {p : Parser α} (hp : Makes .bare p fun _ => True) :
      keepingOwned.By call p := allows_bare.by hp
  have hbranch := h.by_directiveBranch
  refine .node rfl (.bind (.inDirective (.bind hbranch fun _ => .repeating ?_)) fun _ =>
    hplain (by simp))
  refine .bind (hplain (by simp)) fun k => ?_
  split
  · exact .bind hbranch fun _ => .pure
  · exact .bind hbranch fun _ => .pure
  · exact .pure

theorem by_switchCase : keepingOwned.By call switchCase := by
  refine owned_node (h.allows.by (P := fun _ => True) ?_) _
  simp +decide
  intro v
  split <;> simp +decide

theorem by_sections : keepingOwned.By call (items .switchCases) :=
  by_items h.by_recover (fun s _ => h.by_directiveBlock s) (fun _ => h.by_switchCase)
    fun hscope => absurd rfl hscope

/-! ## Elsewhere -/

/-- What a `switch` is made of, if what stands before it is settled. -/
theorem run_switchBody {s : State} (hs : s.All Settled) :
    (switchBody.run call s).2.Everywhere Owned := by
  have hplain {α : Type} {p : Parser α} (hp : Makes .bare p fun _ => True) :
      keepingOwned.By call p := allows_bare.by hp
  have hsections : keepingOwned.By call (follow' (.items .switchCases)) := h.sections
  have hsubject := h.others (.expr .condition) (by decide) _ (keepingSettled.consume s hs)
  have hrest : keepingOwned.By call (do
      if ← expect .lBrace .noSwitchBody then
        follow' (.items .switchCases)
        require .rBrace .openSwitch) :=
    .bind (hplain (by simp)) fun _ => .ite (.bind hsections fun _ => hplain (by simp)) .pure
  exact hrest _ fun x hx => (hsubject x hx).inside

theorem switchKept : SwitchKept keepingSettled call where
  plain s _ hs := by
    have hinside := h.run_switchBody (hs.start false)
    rw [switchExpr, run_node]
    exact hs.node (Tree.settled_switch fun t ht => hinside t (List.mem_reverse.mp ht))
  labelled s _ _ hs := by
    have hlabel : (s.start false).consume.consume.All Settled :=
      .consume Tree.settled_leaf (.consume Tree.settled_leaf (hs.start false))
    have hinside := h.run_switchBody hlabel
    rw [run_node, run_bind, run_bind]
    exact hs.node (Tree.settled_switch fun t ht => hinside t (List.mem_reverse.mp ht))

theorem by_items_of_ne {scope : Scope} (hscope : scope ≠ .switchCases) :
    keepingSettled.By call (items scope) := by
  have hplain {p : Parser Unit} (hp : Makes settledForms p fun _ => True) :
      keepingSettled.By call p := h.allows.by hp
  refine by_items (fun p => hplain (by simp +decide)) (fun s _ => ?_)
    (fun hscope' => absurd hscope' hscope) fun _ => ?_
  · refine hplain ?_ s
    simp +decide [directiveBlock, directiveBranch, hscope]
    intro v
    split <;> simp [hscope]
  · refine h.switchKept.by_declarationOrStatement h.allows fun s k hk => ?_
    have hmember : k.isMember = true := isMember_of_declaration? hk
    have hne : k ≠ .switchCase := fun h => absurd hmember (by simp [h, NodeKind.isMember])
    exact hplain (by simp [declaration, hne]) s

end SectionsKept

/-- Following a rule leaves behind what is settled, but for the list of a `switch`. -/
theorem sectionsKept_runRule (depth : Nat) : SectionsKept (runRule depth) := by
  induction depth with
  | zero => exact ⟨fun _ _ s => keepingSettled.refl s, keepingOwned.refl⟩
  | succ depth ih =>
    refine ⟨fun r hr => ?_, fun s => ih.by_sections.bind (fun _ => .pure) s⟩
    refine ih.switchKept.by_body ih.allows fun scope hscope => ih.by_items_of_ne ?_
    rintro rfl
    exact hr hscope

theorem settled_parseLexemes (lexemes : List Lexeme) (endGap : Gap) :
    (parseLexemes lexemes endGap).All Settled := by
  have hfile := (sectionsKept_runRule (depthBound lexemes.length)).allows.by
    (p := file) (P := fun _ => True) (by simp)
  exact hfile _ nofun

end Grammar

/-- In the tree of a text, every section stands in a `switch`, with nothing but conditional
    compilation in between. -/
theorem owned_parse (source : String) : (parse source).tree.Everywhere Tree.Owned := by
  have hall := Grammar.settled_parseLexemes (Lexeme.ofTokens (lex source)).1
    (Lexeme.ofTokens (lex source)).2
  refine everywhere_parse_of_root (fun _ _ => Tree.owned_of_withoutTrivia) (fun _ _ t ht => ?_)
    fun t ht => ?_
  · exact (hall t (List.mem_reverse.mp ht)).here
  · exact (hall t ht).inside

end SwiftOutline
