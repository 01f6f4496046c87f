/-
  SwiftOutline.Proofs.Parser.Members

  What the block of a type or an extension is made of. Its items are declarations
  and conditional compilation, whose branches have such items in turn behind their
  conditions; anything else among them has been set aside.
-/
import SwiftOutline.Proofs.Parser.Kinds
import SwiftOutline.Proofs.Tree.Everywhere

namespace SwiftOutline

/-! ## Items of a block -/

/-- Kinds of nodes that stand among members, conditional compilation apart. -/
def NodeKind.isMember : NodeKind → Bool
  | .classDecl | .structDecl | .enumDecl | .actorDecl | .protocolDecl | .extensionDecl
  | .functionDecl | .initializerDecl | .deinitializerDecl | .subscriptDecl | .variableDecl
  | .typeAliasDecl | .associatedTypeDecl | .importDecl | .operatorDecl | .precedenceGroupDecl
  | .enumCaseDecl | .unexpected => true
  | _ => false

/-- Kinds of nodes that members stand in directly. -/
def NodeKind.listsMembers : NodeKind → Bool
  | .memberBlock | .ifConfigClause => true
  | _ => false

namespace Tree

/-- Whether a tree has its place in a node of kind `k` that is a list of members or a part of
    one. -/
inductive ListedIn : NodeKind → Tree → Prop where
  | leaf {k : NodeKind} {t : Token} : ListedIn k (.leaf t)
  | member {k k' : NodeKind} {ts : List Tree} (lists : k.listsMembers = true)
      (member : k'.isMember = true) : ListedIn k (.node k' ts)
  | block {k : NodeKind} {ts : List Tree} (lists : k.listsMembers = true)
      (branches : ∀ t ∈ ts, ListedIn .ifConfigDecl t) : ListedIn k (.node .ifConfigDecl ts)
  | branch {ts : List Tree} (items : ∀ t ∈ ts, ListedIn .ifConfigClause t) :
      ListedIn .ifConfigDecl (.node .ifConfigClause ts)
  | condition {ts : List Tree} (tokens : ∀ t ∈ ts, t.nodeKind? = none) :
      ListedIn .ifConfigClause (.node .ifConfigCondition ts)

/-- A block of members is made of what has its place there. -/
def Membered (k : NodeKind) (children : List Tree) : Prop :=
  k = .memberBlock → ∀ t ∈ children, t.ListedIn .memberBlock

variable {t : Tree} {k : NodeKind} {children : List Tree}

theorem ListedIn.mono {k' : NodeKind} (h : t.ListedIn .memberBlock) (hk : k'.listsMembers = true) :
    t.ListedIn k' := by
  cases h with
  | leaf => exact .leaf
  | member _ member => exact .member hk member
  | block _ branches => exact .block hk branches

/-- Trivia have their place everywhere. -/
theorem ListedIn.of_withoutTrivia (t : Tree) {k : NodeKind} (h : t.withoutTrivia.ListedIn k) :
    t.ListedIn k := by
  cases t with
  | leaf t => exact .leaf
  | node k' children =>
    -- a child is a token or has a counterpart without trivia
    have hchildren {k : NodeKind} (h : ∀ t ∈ forestWithoutTrivia children, t.ListedIn k) :
        ∀ t ∈ children, t.ListedIn k := by
      intro t ht
      rcases leaf_or_mem_forestWithoutTrivia ht with ⟨u, rfl⟩ | ht'
      · exact .leaf
      · exact of_withoutTrivia t (h _ ht')
    cases h with
    | member lists member => exact .member lists member
    | block lists branches => exact .block lists (hchildren branches)
    | branch items => exact .branch (hchildren items)
    | condition tokens =>
      refine .condition fun t ht => ?_
      rcases leaf_or_mem_forestWithoutTrivia ht with ⟨u, rfl⟩ | ht'
      · rfl
      · rw [← nodeKind?_withoutTrivia]
        exact tokens _ ht'

theorem membered_of_withoutTrivia (h : Membered k (forestWithoutTrivia children)) :
    Membered k children := by
  intro hk t ht
  rcases leaf_or_mem_forestWithoutTrivia ht with ⟨u, rfl⟩ | ht'
  · exact .leaf
  · exact .of_withoutTrivia t (h hk _ ht')

end Tree

namespace Grammar

open SwiftOutline.Parser
open SwiftOutline.Tree (ListedIn Membered)
open NodeKind (Among HasOrdinary isOrdinary)

variable {call : Rule → State → Bool × State}

theorem isMember_of_declaration? {scope : Scope} {ls : List Lexeme} {k : NodeKind}
    (h : Lookahead.declaration? scope ls = some k) : k.isMember = true := by
  simp only [Lookahead.declaration?] at h
  split at h <;> grind [NodeKind.isMember]

/-! ## Programs for items -/

theorem adds_directiveCondition :
    Adds (ListedIn .ifConfigClause) call directiveCondition := by
  have htoken : Adds (fun t => t.nodeKind? = none) call bumpBalanced :=
    .bumpBalanced fun _ => rfl
  refine .node_of (R := fun t => t.nodeKind? = none) (.bind .view fun _ => .ite .report ?_)
    fun _ => .condition
  refine .bind htoken fun _ => .repeating (.bind .view fun _ => ?_)
  exact .ite .pure (.bind htoken fun _ => .pure)

section Items

variable (hitems : Adds (ListedIn .memberBlock) call (follow' (.items .member)))

include hitems

theorem adds_directiveBranch : Adds (ListedIn .ifConfigDecl) call (directiveBranch .member) := by
  have hrest : Adds (ListedIn .ifConfigClause) call (follow' (.items .member)) :=
    fun s => (hitems s).mono fun _ h => h.mono rfl
  refine .node_of (R := ListedIn .ifConfigClause) (.bind .sees fun _ => ?_) fun _ => .branch
  refine .bind (.bump fun _ => .leaf) fun _ => .ite hrest ?_
  exact .bind adds_directiveCondition fun _ => hrest

theorem adds_directiveBlock : Adds (ListedIn .memberBlock) call (directiveBlock .member) := by
  have hbranch := adds_directiveBranch hitems
  refine .node_of (R := ListedIn .ifConfigDecl) (.bind (.inDirective (.bind hbranch fun _ => ?_))
    fun _ => .require fun _ => .leaf) fun _ => .block rfl
  refine .repeating (.bind .kind fun k => ?_)
  split
  · exact .bind hbranch fun _ => .pure
  · exact .bind hbranch fun _ => .pure
  · exact .pure

theorem adds_item : Adds (ListedIn .memberBlock) call (item .member) := by
  have haside {p : Problem} : Adds (ListedIn .memberBlock) call (recover p) :=
    .recover fun _ => .member rfl rfl
  refine .bind .kind fun k => ?_
  split
  · exact .bump fun _ => .leaf
  · exact adds_directiveBlock hitems
  · exact haside
  · exact haside
  · exact haside
  · rw [if_pos (by decide)]
    refine .bind .view fun v => ?_
    split
    · next hk => exact .node fun _ => .member rfl (isMember_of_declaration? hk)
    · rw [if_neg (by decide)]
      refine .ite haside ?_
      exact .bind .report fun _ => .node fun _ => .member rfl rfl

theorem adds_items : Adds (ListedIn .memberBlock) call (items .member) := by
  refine .repeating (.bind .view fun _ => .ite .pure (.bind (adds_item hitems) fun _ => ?_))
  refine .bind .view fun _ => .ite (.bind ?_ fun _ => .pure) .pure
  exact .recover fun _ => .member rfl rfl

end Items

/-! ## Files -/

/-- Whether nodes of a kind are no blocks of members. -/
def isNoBlock (k : NodeKind) : Bool := k != .memberBlock

instance : HasOrdinary isNoBlock where
  among h := by
    simp only [isOrdinary, Bool.and_eq_true] at h
    exact h.2

/-- What all rules do to blocks of members. -/
def keepingMembers : Parser.Kept :=
  State.keepingEverywhere Membered (Among isNoBlock) fun _ _ hk hblock => by
    subst hblock
    exact absurd hk (by decide)

/-- No type is a block of members. -/
instance : HasTypes (Forms.of (Among isNoBlock)) where
  type {_ _ k _} h := by cases k <;> first | rfl | exact nomatch h

theorem keeps_memberBlock (hcall : ∀ r s, keepingMembers.rel s (call r s).2)
    (hitems : Adds (ListedIn .memberBlock) call (follow' (.items .member))) :
    keepingMembers.By call memberBlock := by
  have plain {α : Type} {p : Parser α} (h : Makes (Among isNoBlock) p fun _ => True) :
      keepingMembers.By call p := Makes.by (K := keepingMembers) hcall h
  refine .bind (plain (by simp)) fun _ => .ite ?_ (plain (by simp))
  intro s hs
  have hinside : keepingMembers.By call (do
      bump
      follow' (.items .member)
      require .rBrace .openMemberBlock) := plain (by simp)
  have hadds : Adds (ListedIn .memberBlock) call (do
      bump
      follow' (.items .member)
      require .rBrace .openMemberBlock) :=
    .bind (.bump fun _ => .leaf) fun _ => .bind hitems fun _ => .require fun _ => .leaf
  rw [run_node]
  refine hs.finish (hinside _ (hs.start false)) fun k hk _ t ht => ?_
  exact (hadds (s.start false)).forall_built t (List.mem_reverse.mp ht)

/-- Following a rule keeps blocks of members, and the rule for items adds only what has its place
    among members. -/
theorem members_runRule (depth : Nat) : (∀ r s, keepingMembers.rel s (runRule depth r s).2) ∧
    Adds (ListedIn .memberBlock) (runRule depth) (follow' (.items .member)) := by
  induction depth with
  | zero => exact ⟨fun _ s => keepingMembers.refl s, fun s => .refl s⟩
  | succ depth ih =>
    obtain ⟨hcall, hitems⟩ := ih
    refine ⟨fun r s => ?_, fun s => adds_items hitems s⟩
    by_cases hr : r = .type
    · subst hr
      exact Makes.by (K := keepingMembers) hcall (makes_typeExpr (F := Among isNoBlock)) s
    · exact by_body (fun _ => HasOrdinary.among) hcall (keeps_memberBlock hcall hitems) hr s

theorem membered_parseLexemes (lexemes : List Lexeme) (endGap : Gap) :
    (parseLexemes lexemes endGap).Everywhere Membered :=
  by_file (K := keepingMembers) (fun _ => HasOrdinary.among) (members_runRule _).1 _
    (nofun : ∀ x ∈ [], Tree.Everywhere _ x)

end Grammar

/-- In the tree of a text, every block of members is made of what has its place there. -/
theorem membered_parse (source : String) : (parse source).tree.Everywhere Tree.Membered :=
  everywhere_parse (fun _ _ => Tree.membered_of_withoutTrivia) (fun _ => nofun)
    (Grammar.membered_parseLexemes _ _)

end SwiftOutline
