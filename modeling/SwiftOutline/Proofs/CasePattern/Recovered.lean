/-
  SwiftOutline.Proofs.CasePattern.Recovered

  A pattern that is written has the shape that it is written for. Its `switch` is
  parsed without problems and has one item, and the recogniser that is left for
  the pattern of the item finds the names and texts that are written there.
-/
import Mathlib.Data.List.Induction
import SwiftOutline.Proofs.CasePattern.Recognizers
import SwiftOutline.Proofs.CasePattern.Tokens
import SwiftOutline.Proofs.TypeShape.Classified
import SwiftOutline.Proofs.TypeShape.RoundTrip
import SwiftOutline.Proofs.Tree.Everywhere

namespace SwiftOutline

open SwiftOutline.Tree
open TypeShape (blankTree)

/-! ## Kinds of nodes -/

/-- A tree without nodes of a kind has none at any place. -/
theorem Cursor.filter_isKind_nodes {c : Cursor} {k : NodeKind}
    (h : c.tree.Everywhere fun k' _ => k' ≠ k) : (c.nodes.filter fun x => x.isKind k) = [] := by
  refine List.filter_eq_nil_iff.mpr fun x hx hkind => ?_
  have hinside : x.tree.Everywhere fun k' _ => k' ≠ k :=
    Cursor.forall_mem_nodes (P := fun x => x.tree.Everywhere fun k' _ => k' ≠ k)
      (fun _ hc _ he => hc.of_mem_children (Cursor.tree_mem_children he)) h x hx
  exact hinside.here (eq_of_beq hkind) rfl

/-- Types are made of no items of cases. -/
theorem Grammar.Derives.everywhere_ne_caseItem {strict : Bool} {p : Phrase} {ls : List Lexeme}
    {ts : List Tree} (h : Derives strict p ls ts) :
    ∀ t ∈ ts, t.Everywhere fun k _ => k ≠ .caseItem := by
  have hnode : ∀ {k : NodeKind} {us : List Tree}, k ≠ .caseItem →
      (∀ t ∈ us, t.Everywhere fun k _ => k ≠ .caseItem) →
      ∀ t ∈ [Tree.node k us], t.Everywhere fun k _ => k ≠ .caseItem :=
    fun hk hus => List.forall_mem_singleton.mpr (.node hk hus)
  have hcons : ∀ {l : Lexeme} {us : List Tree},
      (∀ t ∈ us, t.Everywhere fun k _ => k ≠ .caseItem) →
      ∀ t ∈ l.leaf :: us, t.Everywhere fun k _ => k ≠ .caseItem :=
    fun hus => List.forall_mem_cons.mpr ⟨.leaf, hus⟩
  have happend : ∀ {us vs : List Tree}, (∀ t ∈ us, t.Everywhere fun k _ => k ≠ .caseItem) →
      (∀ t ∈ vs, t.Everywhere fun k _ => k ≠ .caseItem) →
      ∀ t ∈ us ++ vs, t.Everywhere fun k _ => k ≠ .caseItem :=
    fun hus hvs => List.forall_mem_append.mpr ⟨hus, hvs⟩
  have hnil : ∀ t ∈ ([] : List Tree), t.Everywhere fun k _ => k ≠ .caseItem :=
    List.forall_mem_nil _
  induction h with
  | type _ ih | bare _ ih | composition _ ih | single _ ih | tupled _ ih | lastPart _ ih
  | element _ ih | lastEffect _ ih => exact ih
  | attributed _ _ _ ih ih' => exact hnode (by decide) (happend (hnode (by decide) ih) ih')
  | specified _ _ ih ih' | joined _ _ ih ih' => exact hnode (by decide) (happend ih ih')
  | specifiedAttributed _ _ _ _ ih ih' ih'' =>
    exact hnode (by decide) (happend ih (happend (hnode (by decide) ih') ih''))
  | specifier | effect => exact hcons hnil
  | specifiers _ _ _ ih | lastOperand _ _ ih => exact hcons ih
  | oneAttribute _ _ _ _ _ ih ih' ih'' =>
    exact hnode (by decide) (hcons (hcons (happend ih (happend ih' ih''))))
  | attributes _ _ ih ih' | moreEffects _ _ ih ih' => exact happend ih ih'
  | pathNil | unapplied | membersNil | argumentsNil => exact hnil
  | path _ _ _ ih | labelled _ _ _ ih => exact hcons (hcons ih)
  | appliedNil | unit => exact hnode (by decide) (hcons (hcons hnil))
  | applied _ _ _ _ ih | tuple _ _ _ ih | arguments _ _ _ _ ih | array _ _ _ ih =>
    exact hnode (by decide) (hcons (happend ih (hcons hnil)))
  | attributeArgument =>
    exact hnode (by decide) (List.forall_mem_map.mpr fun _ _ => .leaf)
  | moreParts _ _ _ ih ih' => exact happend ih (hcons ih')
  | someOrAny _ _ _ ih => exact hnode (by decide) (hcons ih)
  | moreOperands _ _ _ ih ih' | name _ _ _ ih ih' => exact hcons (happend ih ih')
  | named _ ih | plain _ ih | genericArgument _ ih => exact hnode (by decide) ih
  | dictionary _ _ _ _ _ ih ih' =>
    exact hnode (by decide) (hcons (happend ih (hcons (happend ih' (hcons hnil)))))
  | function _ _ _ ih ih' =>
    exact hnode (by decide) (happend ih (hnode (by decide) (hcons ih')))
  | functionEffects _ _ _ _ ih ih' ih'' =>
    exact hnode (by decide)
      (happend ih (happend (hnode (by decide) ih') (hnode (by decide) (hcons ih''))))
  | optional _ _ _ ih | unwrapped _ _ _ ih | variadic _ _ ih =>
    exact hnode (by decide) (happend ih (hcons hnil))
  | metatype _ _ _ ih => exact hnode (by decide) (happend ih (hcons (hcons hnil)))
  | labelledTwice _ _ _ _ ih => exact hcons (hcons (hcons ih))
  | members _ _ _ _ ih ih' => exact hcons (hcons (happend ih ih'))
  | thrown _ _ _ _ _ ih => exact hcons (hcons (happend ih (hcons hnil)))

/-- What is between trees with commas between them is a token. -/
theorem Tree.mem_or_leaf_of_mem_commaTrees {t : Tree} {ts : List Tree} (h : t ∈ commaTrees ts) :
    t ∈ ts ∨ ∃ b, t = .leaf b := by
  fun_induction commaTrees ts with
  | case1 => exact .inl h
  | case2 u => exact .inl h
  | case3 u v ts ih =>
    simp only [List.mem_cons] at h
    rcases h with rfl | rfl | rfl | h
    · exact .inl (.head _)
    · exact .inr ⟨_, rfl⟩
    · exact .inr ⟨_, rfl⟩
    · exact (ih h).imp_left (List.mem_cons_of_mem u)

/-- A test that no token passes picks the trees between the commas. -/
theorem Tree.filter_commaTrees {p : Tree → Bool} (hleaf : ∀ b, p (.leaf b) = false)
    (ts : List Tree) : (commaTrees ts).filter p = ts.filter p := by
  fun_induction commaTrees ts with
  | case1 => rfl
  | case2 u => rfl
  | case3 u v ts ih =>
    have hcomma := hleaf ⟨.comma, ","⟩
    have hblank : p blankTree = false := hleaf _
    rw [List.filter_cons, List.filter_cons_of_neg (by simp [hcomma]),
      List.filter_cons_of_neg (by simp [hblank]), ih, ← List.filter_cons]

namespace CasePattern

theorem everywhere_type (type : TypeText) : type.tree.Everywhere fun k _ => k ≠ .caseItem := by
  obtain ⟨ls, -, hd⟩ := type.forms.derives .none
  exact .of_withoutTrivia (fun _ _ hk => hk) _ (hd.everywhere_ne_caseItem _ (.head _))

theorem MemberPath.everywhere (p : MemberPath) : p.tree.Everywhere fun k _ => k ≠ .caseItem := by
  induction p with
  | implicit m => simp [tree, memberTree, everywhere_node_iff, Identifier.tree, Everywhere.leaf]
  | qualified root m =>
    simp [tree, memberTree, everywhere_node_iff, Identifier.tree, Everywhere.leaf]
  | member base m ih =>
    simp [tree, memberTree, everywhere_node_iff, Identifier.tree, Everywhere.leaf, ih]

theorem Slot.everywhere (x : Slot) : x.tree.Everywhere fun k _ => k ≠ .caseItem := by
  cases x <;> simp [tree, everywhere_node_iff, Identifier.tree, Everywhere.leaf]

theorem Introducer.everywhere (w : Introducer) {t : Tree}
    (h : t.Everywhere fun k _ => k ≠ .caseItem) :
    (w.binds t).Everywhere fun k _ => k ≠ .caseItem := by
  simp [binds, everywhere_node_iff, blankTree, Everywhere.leaf, h]

theorem Argument.everywhere (a : Argument) : a.tree.Everywhere fun k _ => k ≠ .caseItem := by
  cases a with
  | bound w x => exact w.everywhere (Slot.name x).everywhere
  | wildcard => exact Slot.wildcard.everywhere
  | literal l => simp [tree, everywhere_node_iff, Everywhere.leaf]

section Lists

variable {α : Type} {f : α → Tree}

theorem everywhere_list (h : ∀ a, (f a).Everywhere fun k _ => k ≠ .caseItem) {k element : NodeKind}
    (hk : k ≠ .caseItem) (helement : element ≠ .caseItem) (es : List (Labelled α)) :
    (listTree k element f es).Everywhere fun k _ => k ≠ .caseItem := by
  have hes : ∀ e : Labelled α, (e.tree element f).Everywhere fun k _ => k ≠ .caseItem := by
    rintro ⟨_ | l, a⟩ <;>
      simp [Labelled.tree, everywhere_node_iff, Identifier.tree, blankTree, Everywhere.leaf,
        helement, h]
  refine .node hk fun t ht => ?_
  rcases List.mem_cons.mp ht with rfl | ht
  · exact .leaf
  · rcases List.mem_append.mp ht with ht | ht
    · rcases mem_or_leaf_of_mem_commaTrees ht with ht | ⟨b, rfl⟩
      · obtain ⟨e, -, rfl⟩ := List.mem_map.mp ht
        exact hes e
      · exact .leaf
    · rw [List.mem_singleton.mp ht]
      exact .leaf

theorem everywhere_call (h : ∀ a, (f a).Everywhere fun k _ => k ≠ .caseItem) (p : MemberPath)
    (es : List (Labelled α)) : (callTree f p es).Everywhere fun k _ => k ≠ .caseItem := by
  have hlist := everywhere_list h (k := .labeledExprList) (by decide)
    (by decide : NodeKind.labeledExpr ≠ .caseItem) es
  simp [callTree, everywhere_node_iff, p.everywhere, hlist]

end Lists

/-- A pattern has no items of cases in it. -/
theorem Spelled.everywhere (p : Spelled) : p.tree.Everywhere fun k _ => k ≠ .caseItem := by
  cases p with
  | member p => exact .node (by decide) (List.forall_mem_singleton.mpr p.everywhere)
  | call p es => exact everywhere_call Argument.everywhere p es
  | bindsMember w p =>
    exact w.everywhere (.node (by decide) (List.forall_mem_singleton.mpr p.everywhere))
  | bindsCall w p es => exact w.everywhere (everywhere_call Slot.everywhere p es)
  | bindsTuple w es =>
    exact w.everywhere (everywhere_list Slot.everywhere (by decide) (by decide) es)
  | binds w x => exact w.everywhere x.everywhere
  | bindsCast w x type =>
    refine w.everywhere ?_
    simp [everywhere_node_iff, blankTree, Everywhere.leaf, x.everywhere, everywhere_type]
  | typeTest type =>
    simp [tree, everywhere_node_iff, blankTree, Everywhere.leaf, everywhere_type]

/-! ## The item -/

/-- Where the item of the `switch` stands. -/
def itemCursor (t : Tree) : Cursor :=
  let front := "switch v \x7b case ".utf8ByteSize
  ⟨.node .caseItem [t], front, [
    ⟨.switchCaseLabel, front - 5, [blankTree, .leaf ⟨.kwCase, "case"⟩], [.leaf ⟨.colon, ":"⟩]⟩,
    ⟨.switchCase, front - 5, [], [blankTree, .node .breakStmt [.leaf ⟨.kwBreak, "break"⟩]]⟩,
    ⟨.switchExpr, 0, [blankTree, .leaf ⟨.lBrace, "\x7b"⟩, blankTree,
      .node .expr [.leaf ⟨.ident, "v"⟩], blankTree, .leaf ⟨.kwSwitch, "switch"⟩],
      [blankTree, .leaf ⟨.rBrace, "\x7d"⟩]⟩,
    ⟨.sourceFile, 0, [], []⟩]⟩

/-- The `switch` has no other item. -/
theorem filter_nodes_switchTree {t : Tree} (h : t.Everywhere fun k _ => k ≠ .caseItem) :
    ((Cursor.ofTree (.node .sourceFile [switchTree t])).nodes.filter fun c =>
      c.isKind .caseItem) = [itemCursor t] := by
  have hnone : ∀ start above, ((Cursor.nodesOf t start above).filter fun c =>
      c.isKind .caseItem) = [] := fun start above =>
    Cursor.filter_isKind_nodes (c := ⟨t, start, above⟩) h
  have hkind : ∀ k ts start above, Cursor.isKind ⟨.node k ts, start, above⟩ .caseItem =
      (some k == some .caseItem) := fun _ _ _ _ => rfl
  simp only [Cursor.nodes, Cursor.ofTree, switchTree, caseTree, caseLabel, blankTree,
    Cursor.nodesOf, Cursor.nodesOfForest, List.filter_append, List.filter_cons, hkind, hnone,
    List.filter_nil, List.append_nil, List.nil_append, Option.some_beq_some, reduceCtorEq,
    beq_iff_eq, if_false, if_true]
  rfl

/-! ## The recogniser that decides -/

variable {c e p : Cursor} {shape : CasePattern} {t : Tree}

/-- A recogniser that accepts the pattern decides. -/
theorem classify_of_accepts {r : Cursor → Option CasePattern} (hp : patternOf? c = some p)
    (hr : r ∈ recognizers) (h : r p = some shape) : classify c = shape := by
  obtain ⟨i, hi, rfl⟩ := List.mem_iff_getElem.mp hr
  rw [classify, classifyBy, hp, Option.bind_some]
  cases hfound : recognizers.findSome? fun r => r p with
  | none =>
    rw [List.findSome?_eq_none_iff.mp hfound _ hr] at h
    cases h
  | some shape' =>
    obtain ⟨r', hr', h'⟩ := List.exists_of_findSome?_eq_some hfound
    obtain ⟨j, hj, rfl⟩ := List.mem_iff_getElem.mp hr'
    -- both places are the one that is left for the pattern
    have hplaces := (candidateOf?_of_accepts hi h).symm.trans (candidateOf?_of_accepts hj h')
    obtain rfl := Option.some.inj hplaces
    exact Option.some.inj (h'.symm.trans h)

/-- A pattern that the recogniser left for it does not accept has none of the known shapes. -/
theorem classify_of_declined (hp : patternOf? c = some p)
    (h : ∀ i (hi : i < recognizers.length), candidateOf? p = some i → recognizers[i] p = none) :
    classify c = .unsupported c.description := by
  have hnone : recognizers.findSome? (fun r => r p) = none := by
    refine List.findSome?_eq_none_iff.mpr fun r hr => ?_
    obtain ⟨i, hi, rfl⟩ := List.mem_iff_getElem.mp hr
    cases haccepts : recognizers[i] p with
    | none => rfl
    | some shape => exact (haccepts.symm.trans (h i hi (candidateOf?_of_accepts hi haccepts))).symm ▸ rfl
  rw [classify, classifyBy, hp, Option.bind_some, hnone]
  rfl

/-! ## Children -/

/-- The only child node. -/
theorem exists_soleChild? {k : NodeKind} (front back : List Tree)
    (htree : c.tree = .node k (front ++ t :: back)) (hfront : ∀ u ∈ front, u.nodeKind? = none)
    (ht : t.nodeKind?.isSome = true) (hback : ∀ u ∈ back, u.nodeKind? = none) :
    ∃ e ∈ c.elements, soleChild? c = some e ∧ e.tree = t ∧
      e.behind = forestLeaves back ++ c.behind := by
  obtain ⟨e, he, hfind, rfl, hbehind⟩ := Cursor.exists_find?_elements htree
    (p := fun u => u.nodeKind?.isSome) (fun u hu => by rw [hfront u hu]; rfl) ht
  have htrees : c.children.map Cursor.tree = [e.tree] := by
    have hfilter : c.children.map Cursor.tree =
        (c.elements.map Cursor.tree).filter fun u => u.nodeKind?.isSome := by
      rw [List.filter_map]
      rfl
    have hnone : ∀ {us : List Tree}, (∀ u ∈ us, u.nodeKind? = none) →
        us.filter (fun u => u.nodeKind?.isSome) = [] := by
      intro us hus
      exact List.filter_eq_nil_iff.mpr fun u hu => by simp [hus u hu]
    rw [hfilter, Cursor.map_tree_elements, htree, Tree.children, List.filter_append, hnone hfront,
      List.filter_cons, if_pos ht, hnone hback, List.nil_append]
  obtain ⟨x, hx, -⟩ := List.map_eq_singleton_iff.mp htrees
  have hhead : c.children.head? = some e := (List.head?_filter ..).trans hfind
  rw [hx] at hhead
  obtain rfl := Option.some.inj hhead
  exact ⟨x, he, by rw [soleChild?, hx], rfl, hbehind⟩

theorem candidateOf?_of_tree {k j : NodeKind} (front : List Tree)
    (htree : c.tree = .node k (front ++ [t])) (hfront : ∀ u ∈ front, u.nodeKind? = none)
    (ht : t.nodeKind? = some j) : candidateOf? c = candidate? (some k) (some j) := by
  obtain ⟨e, -, hsole, rfl, -⟩ := exists_soleChild? front [] htree hfront (by rw [ht]; rfl)
    (by simp)
  rw [candidateOf?_eq (k := k) (by rw [Cursor.isKind, htree]; simp [nodeKind?]) hsole, ht]

/-- The first child that is a pattern. -/
theorem exists_patternChild {k : NodeKind} {front back : List Tree}
    (htree : c.tree = .node k (front ++ t :: back)) (hfront : ∀ u ∈ front, u.nodeKind? = none)
    (ht : t.nodeKind?.any NodeKind.isPattern = true) :
    ∃ e, c.children.find? Cursor.isPattern = some e ∧ e.tree = t := by
  obtain ⟨e, -, hfind, he, -⟩ := Cursor.exists_find?_elements htree
    (p := fun u => u.nodeKind?.any NodeKind.isPattern) (fun u hu => by rw [hfront u hu]; rfl) ht
  refine ⟨e, ?_, he⟩
  rw [Cursor.children, List.find?_filter, ← hfind]
  congr 1
  funext x
  obtain ⟨tree, start, above⟩ := x
  cases tree <;> simp [Cursor.isPattern, nodeKind?]

/-! ## Names -/

theorem trim_name (n : AsciiName) : Text.trim n.text = n.text :=
  Text.trim_eq_self fun c hc => Text.isBlank_of_isWordChar (n.ascii c hc)

namespace MemberPath

theorem forall_isBlank (q : MemberPath) : ∀ c ∈ q.text.toList, Text.isBlank c = false := by
  have hname : ∀ (n : AsciiName), ∀ c ∈ n.text.toList, Text.isBlank c = false := fun n c hc =>
    Text.isBlank_of_isWordChar (n.ascii c hc)
  have hpoint : Text.isBlank '.' = false := by decide
  induction q with
  | implicit m =>
    simpa [text, or_imp, forall_and] using ⟨hpoint, hname m⟩
  | qualified root m =>
    simpa [text, or_imp, forall_and] using ⟨hname root, hpoint, hname m⟩
  | member base m ih =>
    simpa [text, or_imp, forall_and] using ⟨ih, hpoint, hname m⟩

/-- A path begins with the name of a member behind a point, or with its own name. -/
theorem text_eq (q : MemberPath) : q.text = "." ++ q.name ∨
    q.text = q.name ∧ ∀ rest, ∀ d ∈ (q.text.toList ++ rest).head?, d ≠ '.' := by
  induction q with
  | implicit m => exact .inl rfl
  | qualified root m =>
    refine .inr ⟨rfl, fun rest => ?_⟩
    simpa [text] using root.ne_point ('.' :: (m.text.toList ++ rest))
  | member base m ih =>
    rcases ih with htext | ⟨htext, hpoint⟩
    · exact .inl (by rw [text, name, htext]; simp only [String.append_assoc])
    · refine .inr ⟨by rw [text, name, htext], fun rest => ?_⟩
      simpa [text] using hpoint ('.' :: (m.text.toList ++ rest))

theorem memberName?_eq (q : MemberPath) (he : e.tree = q.tree) :
    memberName? e = some q.name := by
  have hkind : e.isKind .memberAccessExpr = true := by
    rw [Cursor.isKind, he]
    cases q <;> rfl
  have hdescription : e.description = q.text := by
    rw [Cursor.description, Cursor.text, he, q.spells.text_eq, Text.trim_eq_self q.forall_isBlank]
  rw [memberName?, if_pos hkind, hdescription]
  rcases q.text_eq with htext | ⟨htext, hpoint⟩
  · have hchars : q.text.toList = '.' :: q.name.toList := by simp [htext]
    rw [hchars]
    simp
  · split
    · next rest hchars =>
      have hhead := hpoint [] '.' (by simp [hchars])
      exact absurd rfl hhead
    · rw [String.ofList_toList, htext]

end MemberPath

theorem Slot.boundName?_eq (x : Slot) (he : e.tree = x.tree) : boundName? e = some x.text := by
  have hkind : (e.isKind .identifierPattern || e.isKind .wildcardPattern) = true := by
    rw [Cursor.isKind, Cursor.isKind, he]
    cases x <;> rfl
  rw [boundName?, if_pos hkind, Cursor.description, Cursor.text, he, x.spells.text_eq]
  cases x with
  | name x => rw [text, trim_name]
  | wildcard =>
    have htrim : Text.trim "_" = "_" := Text.trim_eq_self (Lexer.forall_mem_of_all (by decide))
    rw [text, htrim]

/-- The keyword of a pattern is the word that introduces it. -/
theorem Introducer.keyword?_eq (w : Introducer) (ht : t.Snug) (hc : c.tree = w.binds t) :
    keyword? c = some w.text := by
  obtain ⟨tree, start, above⟩ := c
  obtain rfl : tree = w.binds t := hc
  have htrivia : w.kind.isTrivia = false := by cases w <;> rfl
  have hsnug : (w.binds t).Snug := .node (.leaf htrivia) (.trivia rfl (.cons ht .nil))
  rw [keyword?, Cursor.firstSignificant?_eq hsnug.tidy rfl]
  cases w <;> rfl

/-! ## Lists -/

section Lists

variable {α : Type} {f : α → Tree} {k element : NodeKind}

/-- An element of a list has the tree of what it is written for as its only child. -/
theorem Labelled.exists_children (l : Labelled α) (hf : (f l.value).nodeKind?.any NodeKind.isPattern = true)
    (hc : c.tree = l.tree element f) :
    (∃ x, c.children.find? Cursor.isPattern = some x ∧ x.tree = f l.value) ∧
      ∃ x, soleChild? c = some x ∧ x.tree = f l.value := by
  have hlabel : ∀ u ∈ l.label.elim [] (fun n : AsciiName =>
      [n.tree, .leaf ⟨.colon, ":"⟩, blankTree]), u.nodeKind? = none := by
    cases l.label with
    | none => simp
    | some n => simp [Identifier.tree, blankTree, nodeKind?]
  have hsome : (f l.value).nodeKind?.isSome = true := by
    cases hkind : (f l.value).nodeKind? with
    | none => rw [hkind] at hf; exact absurd hf Bool.false_ne_true
    | some k => rfl
  obtain ⟨x, -, hx, htree, -⟩ := exists_soleChild? _ [] hc hlabel hsome (by simp)
  exact ⟨exists_patternChild hc hlabel hf, x, hx, htree⟩

/-- The elements of a list stand for what they are written for. -/
theorem forall₂_elements (es : List (Labelled α)) (hc : c.tree = listTree k element f es) :
    List.Forall₂ (fun x (l : Labelled α) => x.tree = l.tree element f)
      (c.children.filter fun x => x.isKind element) es := by
  have hfilter : (listTree k element f es).children.filter (fun u => u.nodeKind? == some element) =
      es.map (Labelled.tree element f) := by
    have hes : (es.map (Labelled.tree element f)).filter (fun u => u.nodeKind? == some element) =
        es.map (Labelled.tree element f) := by
      refine List.filter_eq_self.mpr fun u hu => ?_
      obtain ⟨l, -, rfl⟩ := List.mem_map.mp hu
      simp [Labelled.tree, nodeKind?]
    rw [listTree, Tree.children, List.filter_cons_of_neg (by simp [nodeKind?]), List.filter_append,
      filter_commaTrees (fun _ => rfl), hes, List.filter_cons_of_neg (by simp [nodeKind?]),
      List.filter_nil, List.append_nil]
  have htrees : (c.children.filter fun x => x.isKind element).map Cursor.tree =
      es.map (Labelled.tree element f) := by
    rw [Cursor.filter_isKind_children, ← hfilter, ← hc, ← Cursor.map_tree_elements, List.filter_map]
    rfl
  exact (forall₂_of_map_eq htrees).imp fun _ _ h => h.2

/-- A call is read as the name of its member and the patterns of its arguments. -/
theorem exists_memberCall? (q : MemberPath) (es : List (Labelled α))
    (hf : ∀ a, (f a).nodeKind?.any NodeKind.isPattern = true) (hc : c.tree = callTree f q es) :
    ∃ arguments, memberCall? c = some (q.name, arguments) ∧
      List.Forall₂ (fun a (l : Labelled α) => ∃ x, a = some x ∧ x.tree = f l.value)
        arguments es := by
  have hkind : c.isKind .expressionPattern = true := by
    rw [Cursor.isKind, hc]
    rfl
  obtain ⟨call, -, hsole, hcall, -⟩ := exists_soleChild? [] [] hc (by simp) rfl (by simp)
  have hcallkind : call.isKind .functionCallExpr = true := by
    rw [Cursor.isKind, hcall]
    rfl
  have hpath : q.tree.nodeKind? = some .memberAccessExpr := by cases q <;> rfl
  obtain ⟨base, hbase, hbasetree⟩ : ∃ x, call.children.head? = some x ∧ x.tree = q.tree := by
    have htree : call.tree = .node .functionCallExpr ([] ++ q.tree :: [_]) := hcall
    obtain ⟨x, -, hfind, hx, -⟩ := Cursor.exists_find?_elements htree
      (p := fun u => u.nodeKind?.isSome) (by simp) (by rw [hpath]; rfl)
    exact ⟨x, (List.head?_filter ..).trans hfind, hx⟩
  have htree : call.tree = .node .functionCallExpr ([q.tree] ++ _ :: []) := hcall
  obtain ⟨list, -, hlist, hlisttree, -⟩ := Cursor.exists_find?_elements htree
    (p := fun u => u.nodeKind? == some .labeledExprList) (by simp [hpath]) rfl
  have hchild : call.child? .labeledExprList = some list := hlist
  refine ⟨(list.children.filter fun e => e.isKind .labeledExpr).map fun a =>
    a.children.find? Cursor.isPattern, ?_, ?_⟩
  · have hfilter : (some call).filter (fun e => e.isKind .functionCallExpr) = some call := by
      rw [Option.filter_some, if_pos hcallkind]
    rw [memberCall?, hkind, hsole]
    simp only [Bool.not_true, Bool.false_eq_true, if_false, Option.bind_eq_bind, hfilter,
      Option.bind_some, hbase, q.memberName?_eq hbasetree, hchild]
    rfl
  · rw [List.forall₂_map_left_iff]
    refine (forall₂_elements es hlisttree).imp fun x l hx => ?_
    exact (l.exists_children (hf l.value) hx).1

end Lists

/-! ## Bindings in arguments -/

/-- Binding a name again changes its word; binding a new name adds it. -/
theorem bind_map (n k : String) (w : String → String) {ns : List String} (hns : ns.Nodup) :
    bind n k (ns.map fun m => (m, w m)) =
      (if n ∈ ns then ns else ns ++ [n]).map fun m => (m, if m = n then k else w m) := by
  induction ns with
  | nil => simp [bind]
  | cons m ns ih =>
    obtain ⟨hm, hns⟩ := List.nodup_cons.mp hns
    rw [List.map_cons, bind]
    by_cases hmn : m = n
    · subst hmn
      have hother : ∀ m' ∈ ns, m' ≠ m := fun m' hm' h => hm (h ▸ hm')
      simp only [beq_self_eq_true, if_true, List.mem_cons, true_or, List.map_cons]
      refine congrArg _ (List.map_congr_left fun m' hm' => ?_)
      rw [if_neg (hother m' hm')]
    · rw [if_neg (by simpa using hmn), ih hns]
      by_cases hn : n ∈ ns <;> simp [hn, hmn, Ne.symm hmn]

theorem eraseDups_concat (ns : List String) (n : String) : (ns ++ [n]).eraseDups =
    if n ∈ ns.eraseDups then ns.eraseDups else ns.eraseDups ++ [n] := by
  rw [List.eraseDups_append]
  by_cases hn : n ∈ ns <;> simp [List.removeAll, hn, List.eraseDups_cons]

theorem nodup_eraseDups (ns : List String) : ns.eraseDups.Nodup := by
  induction ns using List.reverseRecOn with
  | nil => exact List.nodup_nil
  | append_singleton ns n ih =>
    rw [eraseDups_concat]
    split
    · exact ih
    · next hn => exact ih.append (List.nodup_singleton n) (by simpa using hn)

/-- One more binding. -/
theorem boundNames_concat (bs : List (String × String)) (n k : String) :
    boundNames (bs ++ [(n, k)]) = bind n k (boundNames bs) := by
  have hword : ∀ m, lastWord (bs ++ [(n, k)]) m = if m = n then k else lastWord bs m := by
    intro m
    rw [lastWord, List.reverse_append, List.reverse_singleton, List.singleton_append,
      List.lookup_cons]
    by_cases hm : m = n
    · simp [hm]
    · rw [if_neg hm, beq_false_of_ne hm]
      rfl
  have hnames : ((bs ++ [(n, k)]).map Prod.fst).eraseDups =
      if n ∈ (bs.map Prod.fst).eraseDups then (bs.map Prod.fst).eraseDups
      else (bs.map Prod.fst).eraseDups ++ [n] := by
    rw [List.map_append, List.map_singleton, eraseDups_concat]
  rw [boundNames, boundNames, bind_map n k (lastWord bs) (nodup_eraseDups _), hnames]
  exact List.map_congr_left fun m _ => by rw [hword]

example : boundNames [("x", "let"), ("y", "var"), ("x", "var")] = [("x", "var"), ("y", "var")] := by
  decide

/-- Arguments bind their names one after the other. -/
theorem innerBindings?_eq {arguments : List (Option Cursor)} {es : List (Labelled Argument)}
    (h : List.Forall₂ (fun a (l : Labelled Argument) => ∃ x, a = some x ∧ x.tree = l.value.tree)
      arguments es) (bs : List (String × String)) :
    innerBindings? (boundNames bs) arguments =
      some (boundNames (bs ++ es.filterMap fun e => e.value.binding?)) := by
  induction h generalizing bs with
  | nil => rw [List.filterMap_nil, List.append_nil]; rfl
  | @cons a e arguments es ha _ ih =>
    obtain ⟨x, rfl, hx⟩ := ha
    rw [innerBindings?]
    cases hvalue : e.value with
    | bound w n =>
      rw [hvalue] at hx
      have hkind : x.isKind .valueBindingPattern = true := by rw [Cursor.isKind, hx]; rfl
      obtain ⟨y, -, hsole, hy, -⟩ := exists_soleChild? (c := x) (t := (Slot.name n).tree)
        [.leaf ⟨w.kind, w.text⟩, blankTree] [] hx (by simp [nodeKind?, blankTree]) rfl (by simp)
      have hykind : y.isKind .identifierPattern = true := by rw [Cursor.isKind, hy]; rfl
      have hname : y.description = n.text := by
        have hbound := (Slot.name n).boundName?_eq hy
        rw [boundName?, hykind, Bool.true_or, if_pos rfl] at hbound
        exact Option.some.inj hbound
      rw [if_pos hkind, w.keyword?_eq (Slot.name n).spells.snug hx, hsole]
      simp only [Option.bind_eq_bind, Option.bind_some, Option.filter_some, hykind, if_true, hname]
      rw [← boundNames_concat, ih, List.filterMap_cons_some (b := (n.text, w.text)) (by rw [hvalue]; rfl),
        List.append_assoc, List.singleton_append]
    | wildcard =>
      rw [hvalue] at hx
      have hintroduced : x.isKind .valueBindingPattern = false := by rw [Cursor.isKind, hx]; rfl
      have hwildcard : x.isKind .wildcardPattern = true := by rw [Cursor.isKind, hx]; rfl
      rw [hintroduced, if_neg Bool.false_ne_true, if_pos (by rw [hwildcard, Bool.true_or]), ih,
        List.filterMap_cons_none (by rw [hvalue]; rfl)]
    | literal l =>
      rw [hvalue] at hx
      obtain ⟨y, -, hsole, hy, -⟩ := exists_soleChild? (c := x) [] [] hx (by simp) rfl (by simp)
      have hliteral : isLiteral x = true := by
        rw [isLiteral, hsole, Cursor.isKind, hx, Option.any_some, Cursor.isKind, hy]
        rfl
      have hintroduced : x.isKind .valueBindingPattern = false := by rw [Cursor.isKind, hx]; rfl
      rw [hintroduced, if_neg Bool.false_ne_true, if_pos (by rw [hliteral, Bool.or_true]), ih,
        List.filterMap_cons_none (by rw [hvalue]; rfl)]

/-- A call binds the names in its arguments, if there are any. -/
theorem innerBinding?_eq (q : MemberPath) (es : List (Labelled Argument))
    (hc : c.tree = callTree Argument.tree q es) : innerBinding? c =
      match es.filterMap fun e => e.value.binding? with
      | [] => none
      | b :: bs => some (innerBinding q.name (boundNames (b :: bs))) := by
  obtain ⟨arguments, hcall, harguments⟩ := exists_memberCall? q es
    (fun a => by cases a <;> rfl) hc
  have hbindings := innerBindings?_eq harguments []
  rw [List.nil_append] at hbindings
  rw [innerBinding?, hcall]
  simp only [Option.bind_eq_bind, Option.bind_some]
  show (innerBindings? (boundNames []) arguments).bind _ = _
  rw [hbindings, Option.bind_some]
  cases es.filterMap fun e => e.value.binding? with
  | nil => rfl
  | cons b bs => simp [boundNames, List.eraseDups_cons]

/-! ## Patterns behind a word -/

/-- What a word introduces is the only child of the pattern. -/
theorem exists_introduced (w : Introducer) (ht : t.Snug) (hkind : t.nodeKind?.isSome = true)
    (hc : c.tree = w.binds t) : c.isKind .valueBindingPattern = true ∧ keyword? c = some w.text ∧
      ∃ e, soleChild? c = some e ∧ e.tree = t := by
  have hckind : c.isKind .valueBindingPattern = true := by rw [Cursor.isKind, hc]; rfl
  obtain ⟨e, -, hsole, he, -⟩ := exists_soleChild? (c := c) (t := t)
    [.leaf ⟨w.kind, w.text⟩, blankTree] [] hc (by simp [nodeKind?, blankTree]) hkind (by simp)
  exact ⟨hckind, w.keyword?_eq ht hc, e, hsole, he⟩

theorem member?_eq (q : MemberPath) (hc : c.tree = .node .expressionPattern [q.tree]) :
    member? c = some (member q.name) := by
  obtain ⟨e, -, hsole, he, -⟩ := exists_soleChild? (c := c) (t := q.tree) [] [] hc (by simp)
    (by cases q <;> rfl) (by simp)
  have hckind : c.isKind .expressionPattern = true := by rw [Cursor.isKind, hc]; rfl
  rw [member?, if_pos hckind, hsole, Option.bind_some, q.memberName?_eq he]
  rfl

/-- The texts of the slots of a list. -/
theorem mapM_boundName?_eq {arguments : List (Option Cursor)} {es : List (Labelled Slot)}
    (h : List.Forall₂ (fun a (l : Labelled Slot) => ∃ x, a = some x ∧ x.tree = l.value.tree)
      arguments es) :
    (arguments.mapM fun a => a.bind boundName?) = some (es.map fun e => e.value.text) := by
  induction h with
  | nil => rfl
  | @cons a e arguments es ha _ ih =>
    obtain ⟨x, rfl, hx⟩ := ha
    rw [List.mapM_cons, ih, Option.bind_some, e.value.boundName?_eq hx]
    rfl

theorem memberBinding?_of_member (w : Introducer) (q : MemberPath)
    (hc : c.tree = w.binds (.node .expressionPattern [q.tree])) :
    memberBinding? c = some (memberBinding w.text q.name []) := by
  obtain ⟨hkind, hkeyword, e, hsole, he⟩ := exists_introduced w q.spells.node.snug rfl hc
  rw [memberBinding?, hkind, hkeyword, hsole]
  simp only [Bool.not_true, Bool.false_eq_true, if_false, Option.bind_eq_bind, Option.bind_some,
    member?_eq q he]

theorem memberBinding?_of_call (w : Introducer) (q : MemberPath) (es : List (Labelled Slot))
    (hc : c.tree = w.binds (callTree Slot.tree q es)) :
    memberBinding? c = some (memberBinding w.text q.name (es.map fun e => e.value.text)) := by
  have hsnug := (spells_call q Slot.spells es).snug
  obtain ⟨hkind, hkeyword, e, hsole, he⟩ := exists_introduced w hsnug rfl hc
  obtain ⟨arguments, hcall, harguments⟩ := exists_memberCall? q es (fun x => by cases x <;> rfl) he
  have hmember : member? e = none := by
    obtain ⟨-, call, hcallsole, hcallkind⟩ := exists_of_memberCall? hcall
    have hname : memberName? call = none := by
      rw [memberName?, if_neg]
      rw [Cursor.isKind, eq_of_beq hcallkind]
      decide
    rw [member?, hcallsole, Option.bind_some, hname, Option.map_none, ite_self]
  rw [memberBinding?, hkind, hkeyword, hsole]
  simp only [Bool.not_true, Bool.false_eq_true, if_false, Option.bind_eq_bind, Option.bind_some,
    hmember, hcall, mapM_boundName?_eq harguments]

theorem binding?_of_name (w : Introducer) (n : AsciiName) (hc : c.tree = w.binds (Slot.name n).tree) :
    binding? c = some (binding w.text [n.text]) := by
  obtain ⟨hkind, hkeyword, e, hsole, he⟩ := exists_introduced w (Slot.name n).spells.snug rfl hc
  have hname : e.description = n.text := by
    rw [Cursor.description, Cursor.text, he, (Slot.name n).spells.text_eq, Slot.text, trim_name]
  have hekind : e.tree.nodeKind? = some .identifierPattern := by rw [he]; rfl
  rw [binding?, hkind, hkeyword, hsole]
  simp only [Bool.not_true, Bool.false_eq_true, if_false, Option.bind_eq_bind, Option.bind_some,
    hekind, hname]

theorem binding?_of_tuple (w : Introducer) (es : List (Labelled Slot))
    (hc : c.tree = w.binds (listTree .tuplePattern .tuplePatternElement Slot.tree es)) :
    binding? c = some (binding w.text (es.map fun e => e.value.text)) := by
  have hsnug := (spells_list Slot.spells .tuplePattern .tuplePatternElement es).snug
  obtain ⟨hkind, hkeyword, e, hsole, he⟩ := exists_introduced w hsnug rfl hc
  have hekind : e.tree.nodeKind? = some .tuplePattern := by rw [he]; rfl
  have helements : ((e.children.filter fun x => x.isKind .tuplePatternElement).mapM fun x =>
      (soleChild? x).bind boundName?) = some (es.map fun e => e.value.text) := by
    have hmap : ∀ xs : List Cursor, (xs.mapM fun x => (soleChild? x).bind boundName?) =
        (xs.map soleChild?).mapM fun a => a.bind boundName? := fun xs => by
      rw [List.mapM_map]
      rfl
    rw [hmap]
    refine mapM_boundName?_eq (List.forall₂_map_left_iff.mpr ?_)
    refine (forall₂_elements es he).imp fun x l hx => ?_
    exact (l.exists_children (by cases l.value <;> rfl) hx).2
  rw [binding?, hkind, hkeyword, hsole]
  simp only [Bool.not_true, Bool.false_eq_true, if_false, Option.bind_eq_bind, Option.bind_some,
    hekind, helements]

/-- A cast binds its name, and nothing if there is none. -/
theorem binding?_of_cast (w : Introducer) (x : Slot) (type : TypeText)
    (hc : c.tree = w.binds (.node .asPattern
      [x.tree, blankTree, .leaf ⟨.kwAs, "as"⟩, blankTree, type.tree])) :
    binding? c = match x with
      | .name n => some (binding w.text [n.text])
      | .wildcard => none := by
  obtain ⟨hkind, hkeyword, e, hsole, he⟩ := exists_introduced w (spells_cast x type).snug rfl hc
  have hekind : e.tree.nodeKind? = some .asPattern := by rw [he]; rfl
  have htree : e.tree = .node .asPattern ([] ++ x.tree :: _) := he
  obtain ⟨y, -, hfind, hy, -⟩ := Cursor.exists_find?_elements htree
    (p := fun u => u.nodeKind?.isSome) (by simp) (by cases x <;> rfl)
  have hhead : e.children.head? = some y := (List.head?_filter ..).trans hfind
  rw [binding?, hkind, hkeyword, hsole]
  simp only [Bool.not_true, Bool.false_eq_true, if_false, Option.bind_eq_bind, Option.bind_some,
    hekind, hhead]
  cases x with
  | name n =>
    have hykind : y.isKind .identifierPattern = true := by rw [Cursor.isKind, hy]; rfl
    have hname : y.description = n.text := by
      rw [Cursor.description, Cursor.text, hy, (Slot.name n).spells.text_eq, Slot.text, trim_name]
    simp only [Option.filter_some, hykind, if_true, Option.bind_some, hname]
  | wildcard =>
    have hykind : y.isKind .identifierPattern = false := by rw [Cursor.isKind, hy]; rfl
    simp only [Option.filter_some, hykind, Bool.false_eq_true, if_false, Option.bind_none]

/-! ## Types -/

/-- In front of a colon a type test has the shape that its type has as an annotation. -/
theorem typeTest?_eq (type : TypeText) (hc : c.tree = (Spelled.typeTest type).tree)
    (hbehind : ∃ more, c.behind = ⟨.colon, ":"⟩ :: more) (hshown : ∀ m, c.surroundedIn m = true) :
    typeTest? c = some (isType (TypeShape.classify (.ofAscribed type.tree))) := by
  have hkind : c.isKind .isTypePattern = true := by rw [Cursor.isKind, hc]; rfl
  have htree : c.tree = .node .isTypePattern ([.leaf ⟨.kwIs, "is"⟩, blankTree] ++ type.tree :: []) :=
    hc
  obtain ⟨e, he, hfind, hetree, hebehind⟩ := Cursor.exists_find?_elements htree
    (p := fun u => u.nodeKind?.any NodeKind.isType) (by simp [nodeKind?, blankTree])
    type.nodeKind?_tree
  have hchild : c.typeChild? = some e := hfind
  have hmark : TypeShape.Sealed e.behind := by
    obtain ⟨more, hmore⟩ := hbehind
    rw [hebehind, hmore]
    exact .of_kind (by decide) more
  have hclassify : TypeShape.classify e = TypeShape.classify (.ofAscribed type.tree) :=
    TypeShape.classify_eq_of_mem (k := .isTypePattern) he (by rw [hc]; rfl) (by decide) hetree
      (by rw [hetree]; exact type.forms.snug.tidy) hmark hshown (TypeShape.apart_ofAscribed _)
      fun m => by cases m <;> rfl
  rw [typeTest?, if_pos hkind, hchild, Option.map_some, hclassify, Option.getD_some]

/-! ## All patterns -/

/-- Where the pattern of the `switch` stands. -/
def patternCursor (t : Tree) : Cursor :=
  ⟨t, (itemCursor t).start, ⟨.caseItem, (itemCursor t).start, [], []⟩ :: (itemCursor t).above⟩

theorem patternOf?_itemCursor (ht : t.nodeKind?.any NodeKind.isPattern = true) :
    patternOf? (itemCursor t) = some (patternCursor t) := by
  have hkind : (itemCursor t).isKind .caseItem = true := rfl
  have hsome : t.nodeKind?.isSome = true := by
    cases hk : t.nodeKind? with
    | none => rw [hk] at ht; exact absurd ht Bool.false_ne_true
    | some k => rfl
  have hchildren : (itemCursor t).children = [patternCursor t] :=
    List.filter_cons_of_pos (l := []) hsome
  have hpattern : (patternCursor t).isPattern = true := ht
  rw [patternOf?, if_pos hkind, hchildren, List.find?_cons_of_pos hpattern]

/-- The item of the `switch` has the shape that the pattern is written for. -/
theorem classify_itemCursor (p : Spelled) : classify (itemCursor p.tree) = p.shape := by
  have hpattern : patternOf? (itemCursor p.tree) = some (patternCursor p.tree) :=
    patternOf?_itemCursor (by cases p <;> rfl)
  have hdescription : (itemCursor p.tree).description = Text.trim p.text := by
    rw [Cursor.description, Cursor.text, itemCursor, p.spells.node.text_eq]
  have haccepts : ∀ {r shape}, r ∈ recognizers → r (patternCursor p.tree) = some shape →
      classify (itemCursor p.tree) = shape := classify_of_accepts hpattern
  have hdeclined := classify_of_declined hpattern
  rw [hdescription] at hdeclined
  cases p with
  | member q => exact haccepts (by simp [recognizers]) (member?_eq q rfl)
  | call q es =>
    have hinner := innerBinding?_eq q es (c := patternCursor (Spelled.call q es).tree) rfl
    rw [Spelled.shape]
    cases hbindings : es.filterMap fun e => e.value.binding? with
    | nil =>
      rw [hbindings] at hinner
      refine hdeclined fun i hi hplace => ?_
      -- a call is left to the recogniser of bindings in arguments
      have hcandidate : candidateOf? (patternCursor (Spelled.call q es).tree) = some 3 :=
        candidateOf?_of_tree (k := .expressionPattern) (j := .functionCallExpr) [] rfl (by simp) rfl
      obtain rfl := Option.some.inj (hcandidate.symm.trans hplace)
      exact hinner
    | cons b bs =>
      rw [hbindings] at hinner
      exact haccepts (by simp [recognizers]) hinner
  | bindsMember w q => exact haccepts (by simp [recognizers]) (memberBinding?_of_member w q rfl)
  | bindsCall w q es => exact haccepts (by simp [recognizers]) (memberBinding?_of_call w q es rfl)
  | bindsTuple w es => exact haccepts (by simp [recognizers]) (binding?_of_tuple w es rfl)
  | binds w x =>
    cases x with
    | name n => exact haccepts (by simp [recognizers]) (binding?_of_name w n rfl)
    | wildcard =>
      refine hdeclined fun i hi hplace => ?_
      have hcandidate : candidateOf? (patternCursor (Spelled.binds w .wildcard).tree) = none :=
        candidateOf?_of_tree (k := .valueBindingPattern) (j := .wildcardPattern)
          [.leaf ⟨w.kind, w.text⟩, blankTree] rfl (by simp [nodeKind?, blankTree]) rfl
      exact absurd (hcandidate.symm.trans hplace) (by simp)
  | bindsCast w x type =>
    have hcast := binding?_of_cast w x type
      (c := patternCursor (Spelled.bindsCast w x type).tree) rfl
    cases x with
    | name n => exact haccepts (by simp [recognizers]) hcast
    | wildcard =>
      refine hdeclined fun i hi hplace => ?_
      have hcandidate : candidateOf? (patternCursor (Spelled.bindsCast w .wildcard type).tree) =
          some 5 :=
        candidateOf?_of_tree (k := .valueBindingPattern) (j := .asPattern)
          [.leaf ⟨w.kind, w.text⟩, blankTree] rfl (by simp [nodeKind?, blankTree]) rfl
      obtain rfl := Option.some.inj (hcandidate.symm.trans hplace)
      exact hcast
  | typeTest type =>
    have htest := typeTest?_eq type (c := patternCursor (Spelled.typeTest type).tree) rfl
      ⟨_, rfl⟩ fun m => by cases m <;> rfl
    exact haccepts (by simp [recognizers]) htest

/-- A `switch` with a written pattern in its only case is parsed without problems, and its only
    item has the shape that the pattern is written for. -/
theorem classify_spelled (p : Spelled) : (parse p.inSwitch).diagnostics = [] ∧
    (((Cursor.ofTree (parse p.inSwitch).tree).nodes.filter fun c => c.isKind .caseItem).map
      classify) = [p.shape] := by
  rw [parse_inSwitch]
  refine ⟨rfl, ?_⟩
  rw [filter_nodes_switchTree p.everywhere, List.map_singleton, classify_itemCursor]

/-- `A.m(let x, of: var y, _, -1, var x)`: the name that is bound twice keeps its place. -/
theorem classify_mixedCall :
    ∃ p : Spelled,
      p.inSwitch = "switch v \x7b case A.m(let x, of: var y, _, -1, var x): break \x7d" ∧
      (parse p.inSwitch).diagnostics = [] ∧
      (((Cursor.ofTree (parse p.inSwitch).tree).nodes.filter fun c => c.isKind .caseItem).map
        classify) = [.innerBinding "A.m" [("x", "var"), ("y", "var")]] := by
  let root : AsciiName := ⟨⟨"A", by decide +kernel⟩, List.all_eq_true.mp (by decide)⟩
  let m : AsciiName := ⟨⟨"m", by decide +kernel⟩, List.all_eq_true.mp (by decide)⟩
  let x : AsciiName := ⟨⟨"x", by decide +kernel⟩, List.all_eq_true.mp (by decide)⟩
  let y : AsciiName := ⟨⟨"y", by decide +kernel⟩, List.all_eq_true.mp (by decide)⟩
  let label : AsciiName := ⟨⟨"of", by decide +kernel⟩, List.all_eq_true.mp (by decide)⟩
  let minusOne : LiteralText := ⟨"-1", [⟨.operator, "-"⟩, ⟨.intLiteral, "1"⟩], by decide +kernel,
    .inr ⟨.intLiteral, "1", by decide, rfl⟩⟩
  let p : Spelled := .call (.qualified root m) [⟨none, .bound .letWord x⟩,
    ⟨some label, .bound .varWord y⟩, ⟨none, .wildcard⟩, ⟨none, .literal minusOne⟩,
    ⟨none, .bound .varWord x⟩]
  have hnames : boundNames [("x", "let"), ("y", "var"), ("x", "var")] =
      [("x", "var"), ("y", "var")] := by decide
  have hshape : p.shape = .innerBinding "A.m" [("x", "var"), ("y", "var")] :=
    congrArg (innerBinding "A.m") hnames
  obtain ⟨hclean, hclassify⟩ := classify_spelled p
  exact ⟨p, by decide, hclean, hshape ▸ hclassify⟩

/-- Behind a word alone `_` is not bound, as it is in a list. -/
theorem classify_wildcard :
    let source := "switch v \x7b case let _: break \x7d"
    (parse source).diagnostics = [] ∧
      (((Cursor.ofTree (parse source).tree).nodes.filter fun c => c.isKind .caseItem).map
        classify) ≠ [.binding "let" ["_"]] := by
  intro source
  have hunsupported : (((Cursor.ofTree (parse source).tree).nodes.filter fun c =>
      c.isKind .caseItem).map classify).map isUnsupported = [true] := by decide +kernel
  refine ⟨by decide +kernel, fun h => ?_⟩
  rw [h] at hunsupported
  exact absurd hunsupported (by decide)

end CasePattern

end SwiftOutline
