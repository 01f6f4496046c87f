/-
  SwiftOutline.Proofs.Outline.Keywords

  The keywords of declarations. The keyword is not kept by the parser but read
  from the tree, as the first token behind the attributes and modifiers. So it is
  the word that introduces the declaration if that comes first there, which it
  does, unless a label comes before a `switch`.
-/
import SwiftOutline.Proofs.Outline.Ahead
import SwiftOutline.Proofs.Outline.SourceOrder
import SwiftOutline.Proofs.Parser.Keywords
import SwiftOutline.Proofs.Token.Spelling

namespace SwiftOutline

open SwiftOutline.Tree (forestWithoutTrivia mem_forestWithoutTrivia nodeKind?_withoutTrivia)

namespace DeclarationKind

/-- The words that introduce declarations of a kind. -/
def keywords : DeclarationKind → List String
  | actor => ["actor"]
  | classType => ["class"]
  | conditional => ["#if"]
  | deinitializer => ["deinit"]
  | enumeration => ["enum"]
  | extensionOf => ["extension"]
  | function => ["func"]
  | moduleImport => ["import"]
  | initializer => ["init"]
  | operator => ["operator"]
  | precedenceGroup => ["precedencegroup"]
  | protocolType => ["protocol"]
  | structType => ["struct"]
  | subscript => ["subscript"]
  | typeAlias => ["typealias"]
  | binding => ["let", "var"]
  | switch => ["switch"]

end DeclarationKind

namespace Tree

theorem children_withoutTrivia (t : Tree) :
    t.withoutTrivia.children = forestWithoutTrivia t.children := by
  cases t <;> rfl

theorem isSpecifierList_withoutTrivia (t : Tree) :
    t.withoutTrivia.isSpecifierList = t.isSpecifierList := by
  rw [isSpecifierList, nodeKind?_withoutTrivia, isSpecifierList]

end Tree

namespace Cursor

variable {c : Cursor} {t : Token} {k : NodeKind} {ts : List Tree}

/-- The label of a `switch`, as in `outer: switch x`. -/
def label? (c : Cursor) : Option Token :=
  match c.significantTokens with
  | l :: colon :: _ =>
    if c.isKind .switchExpr && l.kind == .ident && colon.kind == .colon then some l else none
  | _ => none

/-- The token of a leaf, and the first one that is no trivia of a node. -/
def firstWord (c : Cursor) : String :=
  match c.tree with
  | .leaf t => t.text
  | .node _ _ => (c.firstSignificant?.map text).getD ""

/-- Whether no attribute in a tree has generic arguments or arguments in parentheses. -/
def HasBareAttributes (root : Cursor) : Prop :=
  ∀ a ∈ root.nodes, a.isKind .attributeUse = true →
    (a.child? .genericArgumentClause).isNone = true ∧ (a.child? .attributeArguments).isNone = true

instance (root : Cursor) : Decidable root.HasBareAttributes :=
  inferInstanceAs (Decidable (∀ a ∈ root.nodes, a.isKind .attributeUse = true →
    (a.child? .genericArgumentClause).isNone = true ∧
      (a.child? .attributeArguments).isNone = true))

/-! ## Without trivia -/

/-- The tokens among the children are the leaves among them that are no trivia. -/
theorem significantTokens_eq_withoutTrivia (c : Cursor) :
    c.significantTokens =
      (forestWithoutTrivia c.tree.children).filterMap fun t => (ofTree t).token? := by
  rw [significantTokens_eq]
  induction c.tree.children with
  | nil => rfl
  | cons u us ih =>
    rw [forestWithoutTrivia]
    cases u with
    | leaf u =>
      have hleaf : (Tree.leaf u).isTriviaLeaf = u.isTrivia := rfl
      have htoken : (ofTree (.leaf u)).token? = some u := rfl
      rw [hleaf, List.filterMap_cons, htoken, Option.filter_some]
      cases u.isTrivia with
      | true => exact ih
      | false => exact congrArg (u :: ·) ih
    | node k children => exact ih

/-- A node that is tidy and has a leaf first begins with that token. -/
theorem firstWord_of_clause (htidy : c.tree.Tidy)
    (h : c.tree.withoutTrivia = .node k (.leaf t :: ts)) : c.firstWord = t.text := by
  obtain ⟨tree, start, above⟩ := c
  cases tree with
  | leaf u => cases h
  | node k' children =>
    obtain ⟨rfl, hchildren⟩ := Tree.node.inj h
    have hfirst : ∃ us, children = .leaf t :: us := by
      have hhead := htidy.head_children
      cases children with
      | nil => cases hchildren
      | cons u us =>
        have hu : u.isTriviaLeaf = false := by simpa [Tree.children] using hhead
        rw [forestWithoutTrivia, hu, if_neg (by decide)] at hchildren
        rw [Tree.eq_leaf_of_withoutTrivia (List.cons.inj hchildren).1]
        exact ⟨us, rfl⟩
    obtain ⟨us, rfl⟩ := hfirst
    show (Option.map text (firstSignificant? _)).getD "" = _
    rw [firstSignificant?_eq htidy rfl]
    show Tree.text (.leaf t) = _
    simp [Tree.text, Tree.leaves]

end Cursor

/-! ## Reading the keyword -/

theorem Header.keywordOf_cons (e : Cursor) (es : List Cursor) :
    keywordOf (e :: es) =
      if e.tree.isTriviaLeaf || e.tree.isSpecifierList then keywordOf es else e.firstWord := by
  rw [keywordOf, Cursor.firstWord]
  cases e.tree with
  | leaf t =>
    have hleaf : (Tree.leaf t).isTriviaLeaf = t.isTrivia := rfl
    have hlist : (Tree.leaf t).isSpecifierList = false := rfl
    rw [hleaf, hlist, Bool.or_false]
  | node k children =>
    have hleaf : (Tree.node k children).isTriviaLeaf = false := rfl
    have hlist : (Tree.node k children).isSpecifierList =
        (k == .attributeList || k == .modifierList) := by
      cases k <;> rfl
    rw [hleaf, hlist, Bool.false_or]

/-- The keyword is the first word behind attributes and modifiers. -/
theorem Header.exists_firstWord {es : List Cursor} {lists rest : List Tree} {x : Tree}
    (h : forestWithoutTrivia (es.map Cursor.tree) = lists ++ x :: rest)
    (hlists : ∀ y ∈ lists, y.isSpecifierList = true) (hx : x.isSpecifierList = false) :
    ∃ e ∈ es, e.tree.withoutTrivia = x ∧ keywordOf es = e.firstWord := by
  induction es generalizing lists with
  | nil => exact absurd h.symm (by simp [forestWithoutTrivia])
  | cons e es ih =>
    have hlater {ys : List Tree} (h : forestWithoutTrivia (es.map Cursor.tree) = ys ++ x :: rest)
        (hys : ∀ y ∈ ys, y.isSpecifierList = true)
        (hskip : (e.tree.isTriviaLeaf || e.tree.isSpecifierList) = true) :
        ∃ e' ∈ e :: es, e'.tree.withoutTrivia = x ∧ keywordOf (e :: es) = e'.firstWord := by
      obtain ⟨e', he', htree, hword⟩ := ih h hys
      refine ⟨e', List.mem_cons_of_mem e he', htree, ?_⟩
      rw [keywordOf_cons, if_pos hskip, hword]
    rw [List.map_cons, forestWithoutTrivia] at h
    cases htrivia : e.tree.isTriviaLeaf with
    | true =>
      rw [htrivia, if_pos rfl] at h
      exact hlater h hlists (by rw [htrivia, Bool.true_or])
    | false =>
      rw [htrivia, if_neg Bool.false_ne_true] at h
      cases lists with
      | nil =>
        obtain ⟨rfl, -⟩ := List.cons.inj h
        rw [Tree.isSpecifierList_withoutTrivia] at hx
        refine ⟨e, List.mem_cons_self, rfl, ?_⟩
        rw [keywordOf_cons, htrivia, hx, if_neg (by decide)]
      | cons y ys =>
        rw [List.cons_append] at h
        obtain ⟨rfl, hmore⟩ := List.cons.inj h
        have hlist := hlists _ List.mem_cons_self
        rw [Tree.isSpecifierList_withoutTrivia] at hlist
        exact hlater hmore (fun y hy => hlists y (List.mem_cons_of_mem _ hy))
          (by rw [hlist, Bool.or_true])

theorem Declaration.keyword_of_mem_read {m : ViewMode} {c : Cursor} {d : Declaration}
    (h : d ∈ read m c) : d.header.keyword = Header.keywordOf c.elements := by
  rw [read_eq_readWith, readWith] at h
  split at h
  · unfold variablesOf at h
    split at h
    · obtain ⟨p, -, rfl⟩ := List.mem_map.mp h
      rfl
    · cases h
  · obtain ⟨details, -, rfl⟩ := Option.map_eq_some_iff.mp (Option.mem_toList.mp h)
    rfl

namespace Cursor

variable {c : Cursor} {t : Token} {k : NodeKind} {ts front rest : List Tree}

/-! ## What stands behind attributes and modifiers -/

theorem keywordOf_of_leaf
    (h : Tree.Fronts (.leaf t :: rest) (forestWithoutTrivia c.tree.children)) :
    Header.keywordOf c.elements = t.text := by
  obtain ⟨lists, hchildren, hlists⟩ := h
  rw [← map_tree_elements] at hchildren
  obtain ⟨e, -, htree, hword⟩ := Header.exists_firstWord hchildren hlists rfl
  rw [hword, firstWord, Tree.eq_leaf_of_withoutTrivia htree]

theorem keywordOf_of_clause (htidy : ∀ e ∈ c.elements, e.tree.Tidy)
    (h : Tree.Fronts (.node .ifConfigClause (.leaf t :: ts) :: rest)
      (forestWithoutTrivia c.tree.children)) : Header.keywordOf c.elements = t.text := by
  obtain ⟨lists, hchildren, hlists⟩ := h
  rw [← map_tree_elements] at hchildren
  obtain ⟨e, he, htree, hword⟩ := Header.exists_firstWord hchildren hlists rfl
  rw [hword, firstWord_of_clause (htidy e he) htree]

theorem significantTokens_of_fronts (h : Tree.Fronts front (forestWithoutTrivia c.tree.children)) :
    c.significantTokens = front.filterMap fun t => (ofTree t).token? := by
  obtain ⟨lists, hchildren, hlists⟩ := h
  have hnone : lists.filterMap (fun t => (ofTree t).token?) = [] := by
    rw [List.filterMap_eq_nil_iff]
    intro x hx
    have hlist := hlists x hx
    cases x with
    | leaf t => cases hlist
    | node k children => rfl
  rw [significantTokens_eq_withoutTrivia, hchildren, List.filterMap_append, hnone, List.nil_append]

/-- The tokens there are tokens of the text. -/
theorem mem_lex_of_fronts {source : String} (hc : c ∈ (ofTree (parse source).tree).nodes)
    (h : Tree.Fronts front (forestWithoutTrivia c.tree.children))
    (ht : t ∈ Tree.forestLeaves front) : t ∈ lex source := by
  obtain ⟨lists, hchildren, -⟩ := h
  have hmem : t ∈ Token.significant (Tree.forestLeaves c.tree.children) := by
    rw [← Tree.forestLeaves_forestWithoutTrivia, hchildren, Tree.forestLeaves_append]
    exact List.mem_append_right _ ht
  have hleaf : t ∈ c.tree.leaves := by
    have hmem := List.mem_of_mem_filter hmem
    cases htree : c.tree with
    | leaf u => rw [htree] at hmem; cases hmem
    | node k children => rwa [htree] at hmem
  obtain ⟨before, hleaves, -⟩ := (Within.root.of_mem_nodes hc).exists_leaves
  rw [← leaves_parse, hleaves]
  exact List.mem_append_right _ (List.mem_append_left _ hleaf)

theorem label?_of_isKind (h : c.isKind .switchExpr = false) : c.label? = none := by
  unfold label?
  split
  · rw [h, Bool.false_and, Bool.false_and, if_neg Bool.false_ne_true]
  · rfl

/-! ## Attributes without clauses -/

theorem exists_element {u : Tree} (h : u ∈ forestWithoutTrivia c.tree.children) :
    ∃ e ∈ c.elements, u = e.tree.withoutTrivia := by
  obtain ⟨t, ht, -, rfl⟩ := mem_forestWithoutTrivia.mp h
  rw [← map_tree_elements] at ht
  obtain ⟨e, he, rfl⟩ := List.mem_map.mp ht
  exact ⟨e, he, rfl⟩

theorem HasBareAttributes.noClauses {root : Cursor} (h : root.HasBareAttributes)
    (hc : c ∈ root.nodes) : Tree.NoClauses (forestWithoutTrivia c.tree.children) := by
  intro list hlist hkind use huse husekind u hu
  obtain ⟨l, hl, rfl⟩ := exists_element hlist
  rw [nodeKind?_withoutTrivia] at hkind
  rw [Tree.children_withoutTrivia] at huse
  obtain ⟨a, ha, rfl⟩ := exists_element huse
  rw [nodeKind?_withoutTrivia] at husekind
  rw [Tree.children_withoutTrivia] at hu
  obtain ⟨e, he, rfl⟩ := exists_element hu
  -- the attribute is one of the nodes
  have hmem := mem_nodes_of_mem_elements hl (mem_nodes_of_mem_elements ha (mem_nodes_self husekind))
  have hnode : a ∈ root.nodes := mem_nodes_trans hc hmem
  obtain ⟨hgeneric, harguments⟩ := h a hnode (by rw [isKind, husekind]; rfl)
  have hnone {k : NodeKind} (hk : (a.child? k).isNone = true) : e.tree.nodeKind? ≠ some k := by
    intro hkind
    exact List.find?_eq_none.mp (Option.isNone_iff_eq_none.mp hk) e he (by rw [isKind, hkind]; simp)
  rw [nodeKind?_withoutTrivia]
  have hgeneric := hnone hgeneric
  have harguments := hnone harguments
  cases hkind : e.tree.nodeKind? with
  | none => rfl
  | some k => cases k <;> first | rfl | exact absurd hkind hgeneric | exact absurd hkind harguments

/-- In a text without clauses of attributes, nodes of declarations begin as the parser makes
    them. -/
theorem exists_begins {source : String} (h : (ofTree (parse source).tree).HasBareAttributes)
    (hc : c ∈ (ofTree (parse source).tree).nodes) (hk : c.tree.nodeKind? = some k)
    (hdeclared : k.isDeclared = true) :
    ∃ front, Tree.Fronts front (forestWithoutTrivia c.tree.children) ∧ Tree.Begins k front :=
  (opened_parse source).here_of_within (Within.root.of_mem_nodes hc) hk hdeclared (h.noClauses hc)

theorem exists_keyword {word : TokenKind} {K : DeclarationKind} (h : word.introduces? = some k)
    (hK : DeclarationKind.ofNode? k = some K) : ∃ w ∈ K.keywords, word.text? = some w := by
  unfold TokenKind.introduces? at h
  split at h <;> cases h <;> cases hK
  all_goals exact ⟨_, by decide, rfl⟩

/-- A node that begins as the parser makes it has the word of its kind for its keyword, or its
    label. -/
theorem keyword_of_begins {source : String} {K : DeclarationKind}
    (hc : c ∈ (ofTree (parse source).tree).nodes) (hk : c.tree.nodeKind? = some k)
    (hK : DeclarationKind.ofNode? k = some K)
    (hfront : Tree.Fronts front (forestWithoutTrivia c.tree.children))
    (hbegins : Tree.Begins k front) :
    (c.label? = none ∧ Header.keywordOf c.elements ∈ K.keywords) ∨
      ∃ l ∈ lex source, l.kind = .ident ∧ c.label? = some l ∧ K = .switch ∧
        Header.keywordOf c.elements = l.text := by
  have hswitch : c.isKind .switchExpr = (k == .switchExpr) := by rw [isKind, hk]; rfl
  cases hbegins with
  | @word _ t rest hword =>
    obtain ⟨w, hw, htext⟩ := exists_keyword hword hK
    have hne : (k == .switchExpr) = false := by
      cases k <;> first | rfl | exact absurd hword (by cases t.kind <;> decide)
    have ht : t ∈ lex source := mem_lex_of_fronts hc hfront List.mem_cons_self
    rw [keywordOf_of_leaf hfront, text_of_mem_lex ht htext]
    exact .inl ⟨label?_of_isKind (hswitch.trans hne), hw⟩
  | @actor t rest hkind htext =>
    obtain rfl := Option.some.inj hK
    rw [keywordOf_of_leaf hfront, htext]
    exact .inl ⟨label?_of_isKind hswitch, List.mem_singleton_self _⟩
  | @switch t rest hword =>
    obtain rfl := Option.some.inj hK
    have htokens : c.significantTokens = t :: rest.filterMap fun t => (ofTree t).token? :=
      significantTokens_of_fronts hfront
    have hlabel : c.label? = none := by
      rw [label?, htokens]
      split
      · next l colon more hmore =>
        obtain ⟨rfl, -⟩ := List.cons.inj hmore
        simp [hword]
      · rfl
    have ht : t ∈ lex source := mem_lex_of_fronts hc hfront List.mem_cons_self
    have htext : t.text = "switch" := text_of_mem_lex ht (by rw [hword]; rfl)
    rw [keywordOf_of_leaf hfront, htext]
    exact .inl ⟨hlabel, List.mem_singleton_self _⟩
  | @labelled l colon t rest hl hcolon hword =>
    obtain rfl := Option.some.inj hK
    have htokens : c.significantTokens =
        l :: colon :: t :: rest.filterMap fun t => (ofTree t).token? :=
      significantTokens_of_fronts hfront
    have hlabel : c.label? = some l := by
      rw [label?, htokens]
      simp [hswitch, hl, hcolon]
    exact .inr ⟨l, mem_lex_of_fronts hc hfront List.mem_cons_self, hl, hlabel, rfl,
      keywordOf_of_leaf hfront⟩
  | @conditional t ts rest hword =>
    obtain rfl := Option.some.inj hK
    have htidy := Tree.Tidy.of_mem_nodes (tidy_of_mem_children_parse source) hc
      (above_ne_nil_of_nodeKind? hc hk (by decide))
    have hclause := keywordOf_of_clause
      (fun e he => htidy.of_mem_children (tree_mem_children he)) hfront
    have ht : t ∈ lex source := mem_lex_of_fronts hc hfront List.mem_cons_self
    have htext : t.text = "#if" := text_of_mem_lex ht (by rw [hword]; rfl)
    rw [hclause, htext]
    exact .inl ⟨label?_of_isKind hswitch, List.mem_singleton_self _⟩

end Cursor

/-! ## Outlines -/

open Cursor

/-- In a text in which no attribute has generic arguments or arguments in parentheses, the keyword
    of a declaration at any depth is a word that introduces declarations of its kind, if and only if
    no label is written before it. Only a `switch` can have one, and then its keyword is the
    label. -/
theorem keyword_of_reached (m : ViewMode) {source : String}
    (hattributes : (Cursor.ofTree (parse source).tree).HasBareAttributes) {path : List Nat}
    {d : Declaration} (hd : (Outline.ofSource m source).at? path = some d) :
    (d.header.keyword ∈ d.kind.keywords ↔ d.place.label? = none) ∧
    ∀ l, d.place.label? = some l → d.kind = .switch ∧ d.header.keyword = l.text := by
  obtain ⟨c, hc, hintro, hread⟩ :=
    Outline.exists_of_at? (Cursor.mem_nodes_self (nodeKind?_parse source)) hd
  obtain ⟨K, hK⟩ := Option.isSome_iff_exists.mp hintro
  obtain ⟨k, hk, hof⟩ := Option.bind_eq_some_iff.mp hK
  obtain ⟨front, hfront, hbegins⟩ :=
    exists_begins hattributes hc hk (Option.isSome_of_eq_some hof)
  rw [Declaration.keyword_of_mem_read hread, Declaration.kind_of_mem_read hK hread,
    Declaration.place_of_mem_read hK hread]
  rcases keyword_of_begins hc hk hof hfront hbegins with
    ⟨hlabel, hkeyword⟩ | ⟨l, hl, hident, hlabel, rfl, hkeyword⟩
  · rw [hlabel]
    exact ⟨⟨fun _ => rfl, fun _ => hkeyword⟩, nofun⟩
  · rw [hlabel, hkeyword]
    refine ⟨⟨fun hmem => ?_, nofun⟩, fun l' hl' => ⟨rfl, Option.some.inj hl' ▸ rfl⟩⟩
    -- no name is a reserved word
    have hname := reserved?_of_ident hl hident
    rw [List.mem_singleton.mp hmem] at hname
    cases hname

/-- The keyword of a method stands behind an attribute and a modifier. -/
theorem keyword_of_reached_nested :
    ∃ d, (Outline.ofSource .fixedUp "class C \x7b @objc final func f() \x7b\x7d \x7d").at? [0, 0] =
      some d ∧ d.kind = .function ∧ d.header.keyword = "func" := by
  have hattributes : (Cursor.ofTree (parse "class C \x7b @objc final func f() \x7b\x7d \x7d").tree)
      |>.HasBareAttributes := by
    decide +kernel
  have hfound : ((Outline.ofSource .fixedUp "class C \x7b @objc final func f() \x7b\x7d \x7d").at?
      [0, 0]).any (fun d => d.kind == .function && d.place.label?.isNone) = true := by
    decide +kernel
  obtain ⟨d, hd, hcond⟩ := (Option.any_eq_true _ _).mp hfound
  rw [Bool.and_eq_true, beq_iff_eq, Option.isNone_iff_eq_none] at hcond
  obtain ⟨hkind, hlabel⟩ := hcond
  have hkeyword := (keyword_of_reached .fixedUp hattributes hd).1.mpr hlabel
  rw [hkind] at hkeyword
  exact ⟨d, hd, hkind, List.mem_singleton.mp hkeyword⟩

/-- The keyword of a `switch` with a label is no word that introduces one, although the text is
    without fault and without attributes. -/
theorem keyword_of_labelled :
    let source := "outer: switch x \x7b default: break \x7d"
    (parse source).ok = true ∧ (Cursor.ofTree (parse source).tree).HasBareAttributes ∧
    ¬ ∀ path d, (Outline.ofSource .sourceAccurate source).at? path = some d →
      d.header.keyword ∈ d.kind.keywords := by
  intro source
  refine ⟨by decide +kernel, by decide +kernel, fun hall => ?_⟩
  have hfound : ((Outline.ofSource .sourceAccurate source).at? [0]).any (fun d =>
      !d.kind.keywords.contains d.header.keyword) = true := by
    decide +kernel
  obtain ⟨d, hd, hcond⟩ := (Option.any_eq_true _ _).mp hfound
  have hmem := List.contains_iff_mem.mpr (hall [0] d hd)
  rw [hmem] at hcond
  cases hcond

end SwiftOutline
