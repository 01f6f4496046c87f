/-
  SwiftOutline.Proofs.Parameters.Recovered

  The outline of a function that is written has just this function, and its
  signature is the one that it is written for: parameter by parameter, with the
  effects and the result.
-/
import SwiftOutline.Proofs.Outline.Effects
import SwiftOutline.Proofs.Parameters.Tokens
import SwiftOutline.Proofs.Token.Literal

namespace SwiftOutline

open SwiftOutline.Tree
open TypeShape (arrayTree blankTree namedTree wordTree Sealed Apart)

/-! ## Lists -/

/-- Trees with commas between them, and a token behind them, are a list. -/
theorem Tree.listed_commaTrees {ts : List Tree} (h : ∀ t ∈ ts, t.isTriviaLeaf = false) {b : Token}
    (hb : b.isTrivia = false) :
    Listed b.kind ts ((commaTrees ts ++ [Tree.leaf b]).filter fun u => !u.isTriviaLeaf) := by
  have hend : [Tree.leaf b].filter (fun u => !u.isTriviaLeaf) = [Tree.leaf b] :=
    List.filter_cons_of_pos (by simp [isTriviaLeaf, hb])
  induction ts with
  | nil =>
    rw [commaTrees, List.nil_append, hend]
    exact .nil rfl
  | cons t ts ih =>
    obtain ⟨ht, hts⟩ := List.forall_mem_cons.mp h
    cases ts with
    | nil =>
      rw [commaTrees, List.singleton_append, List.filter_cons_of_pos (by simp [ht]), hend]
      exact .last rfl
    | cons u us =>
      have hrest := ih hts
      rw [commaTrees, List.cons_append, List.cons_append, List.cons_append,
        List.filter_cons_of_pos (by simp [ht]), List.filter_cons_of_pos (by rfl),
        List.filter_cons_of_neg (by decide)]
      exact .cons rfl hrest

/-! ## Parameters -/

/-- A name is not `_`. -/
theorem Identifier.ne_underscore (n : Identifier) : n.text ≠ "_" := by
  intro h
  have hname := n.lexed
  have hlex : lex "_" = [⟨.underscore, "_"⟩] := Lexer.lex_word rfl rfl nofun
  rw [h, hlex] at hname
  exact absurd (Token.mk.inj (List.cons.inj hname).1).1 (by decide)

theorem Identifier.named_text (n : Identifier) : Parameter.named n.text = some n.text := by
  rw [Parameter.named, if_neg (by simpa using n.ne_underscore)]

namespace ParameterText

variable (p : ParameterText) {c : Cursor}

theorem nodeKind?_names : ∀ u ∈ p.namesTrees, u.nodeKind? = none := by
  rw [namesTrees]
  cases p.label with
  | none => simp [Identifier.tree, nodeKind?]
  | some l => simp [Identifier.tree, LabelText.tree, blankTree, nodeKind?]

theorem nodeKind?_dots : ∀ u ∈ p.dotsTrees, u.nodeKind? = none := by
  rw [dotsTrees]
  cases p.variadic <;> simp [nodeKind?]

/-- The names in front of the colon. -/
theorem namesOf_eq : Parameter.namesOf p.tree.children =
    (p.label.elim [p.name.text] fun l => [l.text, p.name.text], true) := by
  have hlabel : ∀ k : TokenKind, k.isArgumentLabel = true →
      (k == .colon) = false ∧ k.isTrivia = false ∧ (k == .ellipsis) = false := by
    intro k hk
    cases k <;> first | exact absurd hk (by decide) | decide
  have hname : ∀ more, Parameter.namesOf (p.name.tree :: .leaf ⟨.colon, ":"⟩ :: more) =
      ([p.name.text], true) := fun _ => rfl
  rw [tree, children, namesTrees]
  cases p.label with
  | none => exact hname _
  | some l =>
    obtain ⟨hcolon, htrivia, hellipsis⟩ := hlabel l.kind l.isLabel
    show Parameter.namesOf (.leaf ⟨l.kind, l.text⟩ :: blankTree :: p.name.tree :: _ :: _) = _
    rw [Parameter.namesOf, Token.isTrivia]
    dsimp only
    rw [hcolon, htrivia, hellipsis, if_neg Bool.false_ne_true, if_neg (by decide)]
    rfl

/-- What stands in front of the type. -/
def front (p : ParameterText) : List Tree := p.namesTrees ++ [.leaf ⟨.colon, ":"⟩, blankTree]

theorem tree_eq : p.tree = .node .parameter (p.front ++ p.written.tree ::
    (p.dotsTrees ++ p.defaultTrees)) := by
  rw [tree, front, List.append_assoc]
  rfl

theorem nodeKind?_front : ∀ u ∈ p.front, u.nodeKind? = none := by
  have hcolon : ∀ u ∈ [.leaf ⟨.colon, ":"⟩, blankTree], u.nodeKind? = none := by
    simp [blankTree, nodeKind?]
  exact List.forall_mem_append.mpr ⟨p.nodeKind?_names, hcolon⟩

/-- In front of the value there is no node but the type. -/
theorem nodeKind?_ne {k : NodeKind} (hk : k.isType = false) :
    ∀ u ∈ p.front ++ p.written.tree :: p.dotsTrees, u.nodeKind? ≠ some k := by
  intro u hu hkind
  rcases List.mem_append.mp hu with hu | hu
  · rw [p.nodeKind?_front u hu] at hkind
    cases hkind
  rcases List.mem_cons.mp hu with rfl | hu
  · have htype := p.written.nodeKind?_tree
    rw [hkind] at htype
    exact Bool.false_ne_true (hk.symm.trans htype)
  · rw [p.nodeKind?_dots u hu] at hkind
    cases hkind

/-- The type is found behind the colon. -/
theorem exists_type (hc : c.tree = p.tree) : ∃ e ∈ c.elements, c.typeChild? = some e ∧
    e.tree = p.written.tree ∧
      e.behind = forestLeaves (p.dotsTrees ++ p.defaultTrees) ++ c.behind := by
  have hfront : ∀ u ∈ p.front, u.nodeKind?.any NodeKind.isType = false := by
    intro u hu
    rw [p.nodeKind?_front u hu]
    rfl
  obtain ⟨e, he, hfind, hetree, hbehind⟩ := Cursor.exists_find?_elements (hc.trans p.tree_eq)
    (p := fun u => u.nodeKind?.any NodeKind.isType) hfront p.written.nodeKind?_tree
  exact ⟨e, he, hfind, hetree, hbehind⟩

/-- The value is found behind the `=`. -/
theorem initialValue?_eq (m : ViewMode) (hc : c.tree = p.tree) :
    initialValue? m c = p.default.map LiteralToken.text := by
  have hfront := p.nodeKind?_ne (k := .initializerClause) rfl
  have htree : c.tree = .node .parameter ((p.front ++ p.written.tree :: p.dotsTrees) ++
      p.default.elim [] fun l => [blankTree, l.tree]) := by
    rw [hc, tree_eq, List.append_assoc, List.cons_append]
    rfl
  cases hvalue : p.default with
  | none =>
    rw [hvalue, Option.elim_none, List.append_nil] at htree
    have hnone : c.child? .initializerClause = none := by
      refine Cursor.child?_eq_none fun u hu => hfront u ?_
      have hmem := mem_children_of_mem_parts hu
      rwa [htree, children] at hmem
    rw [initialValue?, hnone]
    rfl
  | some l =>
    rw [hvalue, Option.elim_some] at htree
    have hsplit := htree.trans
      (congrArg (Tree.node .parameter) (List.append_assoc _ [blankTree] [l.tree]).symm)
    have hblank : ∀ u ∈ p.front ++ p.written.tree :: p.dotsTrees ++ [blankTree],
        (u.nodeKind? == some .initializerClause) = false := by
      intro u hu
      rcases List.mem_append.mp hu with hu | hu
      · exact beq_false_of_ne (hfront u hu)
      · rw [List.mem_singleton.mp hu]
        rfl
    obtain ⟨clause, -, hfind, hclause, -⟩ := Cursor.exists_find?_elements hsplit
      (p := fun u => u.nodeKind? == some .initializerClause) hblank rfl
    have hchild : c.child? .initializerClause = some clause := hfind
    obtain ⟨value, hhead, hvaluetree⟩ : ∃ value, (clause.childrenIn m).head? = some value ∧
        value.tree = .node .expr [.leaf ⟨l.kind, l.text⟩] := by
      obtain ⟨tree, start, above⟩ := clause
      obtain rfl : tree = l.tree := hclause
      cases m <;> exact ⟨_, rfl, rfl⟩
    have htext : value.description = l.text := by
      rw [Cursor.description, Cursor.text, hvaluetree, l.spells.node.text_eq,
        Lexer.trim_of_isLiteral l.lexed l.isLiteral]
    rw [initialValue?, hchild]
    simp only [Option.bind_eq_bind, Option.bind_some, hhead, Option.map_some, htext]
    rfl

theorem hasToken_ellipsis (hc : c.tree = p.tree) : c.hasToken .ellipsis = p.variadic := by
  have hlabel : ∀ k : TokenKind, k.isArgumentLabel = true → (k == .ellipsis) = false := by
    intro k hk
    cases k <;> first | exact absurd hk (by decide) | decide
  have hfront : (p.front.any fun u => (Cursor.ofTree u).isToken .ellipsis) = false := by
    rw [front, namesTrees]
    cases p.label with
    | none => rfl
    | some l =>
      have hl : (Cursor.ofTree l.tree).isToken .ellipsis = false := hlabel l.kind l.isLabel
      show ((Cursor.ofTree l.tree).isToken .ellipsis || _) = false
      rw [hl]
      rfl
  have hdefault : (p.defaultTrees.any fun u => (Cursor.ofTree u).isToken .ellipsis) = false := by
    rw [defaultTrees]
    cases p.default <;> rfl
  rw [Cursor.hasToken_eq, hc, tree_eq, children, List.any_append, List.any_cons, List.any_append,
    hfront, hdefault, TypeShape.isToken_of_isType p.written.nodeKind?_tree, Bool.false_or,
    Bool.false_or, Bool.or_false, dotsTrees]
  cases p.variadic <;> rfl

/-- The attributes of the type are its own. -/
theorem attributes_eq_nil (m : ViewMode) (hc : c.tree = p.tree) : Attribute.allIn m c = [] := by
  refine Attribute.allIn_eq_nil fun u hu => ?_
  have hmem := mem_children_of_mem_parts hu
  rw [hc, tree_eq, children, ← List.cons_append, ← List.append_assoc] at hmem
  rcases List.mem_append.mp hmem with hmem | hmem
  · exact p.nodeKind?_ne rfl u hmem
  · rw [defaultTrees] at hmem
    cases hvalue : p.default with
    | none =>
      rw [hvalue] at hmem
      cases hmem
    | some l =>
      rw [hvalue, Option.elim_some] at hmem
      simp only [List.mem_cons, List.not_mem_nil, or_false] at hmem
      rcases hmem with rfl | rfl <;> simp [blankTree, LiteralToken.tree, nodeKind?]

theorem shape_written : p.written.shape = p.type.shape := by
  rw [written]
  split
  · exact p.type.shape_byReference
  · rfl

theorem attributes_written (m : ViewMode) : p.written.attributes m = p.type.attributes m := by
  rw [written]
  split
  · exact p.type.attributes_byReference m
  · rfl

theorem isInout_written : p.written.isInout = (p.byReference || p.type.isInout) := by
  rw [written]
  cases p.byReference with
  | false => rfl
  | true => exact p.type.isInout_byReference

/-- Neither points nor a default mark the type in front of them. -/
theorem sealed_type {ts : List Token} (h : Sealed ts) :
    Sealed (forestLeaves (p.dotsTrees ++ p.defaultTrees) ++ ts) := by
  rw [dotsTrees, defaultTrees]
  cases p.variadic with
  | true => exact .of_kind (by decide) _
  | false =>
    cases p.default with
    | none => exact h
    | some l =>
      intro v hv
      obtain rfl := Option.some.inj hv
      decide

/-- The type is found with its attributes. -/
theorem allIn_type {e : Cursor} (m : ViewMode) (he : e ∈ c.elements) (hc : c.tree = p.tree)
    (hetree : e.tree = p.written.tree) (hshown : ∀ m, c.surroundedIn m = true) :
    ((some e).filter fun t => t.isKind .attributedType).toList.flatMap (Attribute.allIn m) =
      p.type.attributes m := by
  have hkind : c.tree.nodeKind? ≠ some .unexpected := by
    rw [hc]
    exact (by decide : some NodeKind.parameter ≠ some .unexpected)
  rw [← p.attributes_written, TypeText.attributes, Option.filter_some, Cursor.isKind, hetree]
  split
  · next h =>
    have hmirrors : Cursor.Mirrors (Cursor.Paired e (.ofAscribed p.written.tree)) :=
      Cursor.Paired.mirrors hetree
        (fun m => Cursor.surroundedIn_of_mem_elements he hkind (hshown m))
        fun m => by cases m <;> rfl
    rw [if_pos (eq_of_beq h), Option.toList_some, List.flatMap_singleton]
    exact Attribute.allIn_mirror hmirrors .here
  · next h =>
    rw [if_neg (by simpa using h)]
    rfl

/-- A parameter is read as it is written. -/
theorem ofFunction_eq (m : ViewMode) (hc : c.tree = p.tree) (hshown : ∀ m, c.surroundedIn m = true)
    (hbehind : Sealed c.behind) : Parameter.ofFunction m c = p.read m := by
  obtain ⟨e, he, htype, hetree, hebehind⟩ := p.exists_type hc
  have htypein : c.typeIn? m = some e := (Cursor.typeIn?_eq m c).trans htype
  have hnames : Parameter.namesOf c.tree.children = _ := hc ▸ p.namesOf_eq
  have hshape : TypeShape.classify e = p.type.shape := by
    rw [← p.shape_written]
    refine p.written.classify_eq (k := .parameter) he hetree (by rw [hc]; rfl) (by decide) ?_ hshown
    rw [hebehind]
    exact p.sealed_type hbehind
  have hattributes := p.allIn_type m he hc hetree hshown
  have htext : e.description = Text.trim p.written.text := by
    rw [Cursor.description, Cursor.text, hetree, p.written.spells.text_eq]
  have hinout : (((some e).filter fun t => t.isKind .attributedType).any fun t =>
      t.hasToken .kwInout) = (p.byReference || p.type.isInout) := by
    rw [← p.isInout_written, TypeText.isInout, TypeShape.isInoutTree, ← hetree,
      ← Cursor.hasToken_eq, Option.filter_some]
    show Option.any _ (if e.tree.nodeKind? == some .attributedType then _ else _) = _
    cases e.tree.nodeKind? == some .attributedType <;> rfl
  rw [Parameter.ofFunction, Parameter.ofCursorWith, hnames, htypein, p.initialValue?_eq m hc,
    p.hasToken_ellipsis hc, p.attributes_eq_nil m hc]
  rw [read, Parameter.mk.injEq]
  refine ⟨?_, ?_, hshape, congrArg some htext, rfl, hinout, rfl, hattributes, ?_⟩
  · cases p.label <;> rfl
  · -- the name stands behind a label, or alone
    cases p.label <;> exact p.name.named_text
  · cases p.label with
    | none => exact beq_false_of_ne fun h => p.name.ne_underscore (Option.some.inj h)
    | some l => rfl

end ParameterText

/-! ## Effects -/

namespace EffectText

/-- The specifier that an effect is written as. -/
def specifier : EffectText → Specifier
  | async => .async
  | throws => .throws none
  | rethrows => .rethrows none
  | throwing type => .throws (some ⟨type.tree, type.nodeKind?_tree⟩)

theorem specify_specifier (effects : Effects) (e : EffectText) :
    effects.specify e.specifier = e.addTo effects := by
  cases e with
  | async => rfl
  | throws => rfl
  | rethrows => rfl
  | throwing type =>
    show { effects with throws := some ("throws" ++ ("(" ++ type.tree.text ++ ")")) } = _
    rw [type.spells.text_eq, ← String.append_assoc, ← String.append_assoc]
    rfl

theorem trees_specifier (e : EffectText) : e.specifier.trees = e.trees := by
  cases e <;> rfl

end EffectText

/-- Without the blanks between them, effects are specifiers. -/
theorem filter_spacedTrees (es : List EffectText) :
    (spacedTrees es).filter (fun t => !t.isTriviaLeaf) =
      (es.map EffectText.specifier).flatMap Specifier.trees := by
  induction es with
  | nil => rfl
  | cons e es ih =>
    rw [List.map_cons, List.flatMap_cons, ← ih, ← e.specifier.filter_trees, e.trees_specifier]
    cases es with
    | nil => exact (List.append_nil _).symm
    | cons e' es => exact List.filter_append _ (blankTree :: spacedTrees (e' :: es))

theorem Effects.ofElements_spacedTrees (es : List EffectText) :
    Effects.ofElements {} none (spacedTrees es) = effectsOf es := by
  rw [← Effects.ofElements_filter, filter_spacedTrees, Effects.ofElements_specifiers (by simp),
    List.foldl_map, effectsOf]
  simp only [EffectText.specify_specifier]
  rfl

/-! ## Functions -/

/-- Where a function stands that is the whole text. -/
def Cursor.ofWritten (f : FunctionText) : Cursor := ⟨f.tree, 0, [⟨.sourceFile, 0, [], []⟩]⟩

namespace FunctionText

variable (f : FunctionText) {c : Cursor}

theorem exists_signature : ∃ c, (Cursor.ofWritten f).child? .functionSignature = some c ∧
    c.tree = f.signatureTree ∧ (∀ m, c.surroundedIn m = true) ∧ Sealed c.behind := by
  refine ⟨_, rfl, rfl, fun m => by cases m <;> rfl, ?_⟩
  intro v hv
  obtain rfl := Option.some.inj hv
  decide

theorem input_eq (m : ViewMode) (hc : c.tree = f.signatureTree)
    (hshown : ∀ m, c.surroundedIn m = true) :
    ((c.child? .parameterClause).map (Parameter.ofClause m)).getD [] =
      f.parameters.map (ParameterText.read m) := by
  have htree : c.tree = .node .functionSignature
      ([] ++ f.clauseTree :: (effectsTrees f.effects ++ f.outputTrees)) := hc
  obtain ⟨clause, he, hfind, hclause, -⟩ := Cursor.exists_find?_elements htree
    (p := fun u => u.nodeKind? == some .parameterClause) nofun rfl
  have hchild : c.child? .parameterClause = some clause := hfind
  have hclauseshown : ∀ m, clause.surroundedIn m = true := fun m =>
    Cursor.surroundedIn_of_mem_elements he (by simp [hc, signatureTree, nodeKind?]) (hshown m)
  -- the parameters are found between the parentheses, each in front of a comma or the last one
  have hnodes : ∀ t ∈ f.parameters.map ParameterText.tree, t.nodeKind? = some .parameter :=
    List.forall_mem_map.mpr fun _ _ => rfl
  have htokens : ∀ t ∈ f.parameters.map ParameterText.tree, t.isTriviaLeaf = false :=
    List.forall_mem_map.mpr fun _ _ => rfl
  have hlisted := listed_commaTrees htokens (b := ⟨.rParen, ")"⟩) rfl
  have hparts : clause.tree.parts = .leaf ⟨.lParen, "("⟩ ::
      (commaTrees (f.parameters.map ParameterText.tree) ++ [Tree.leaf ⟨.rParen, ")"⟩]).filter
        fun u => !u.isTriviaLeaf := by
    rw [hclause, parts, clauseTree, children, List.filter_cons_of_pos (by rfl)]
  obtain ⟨htrees, hsealed⟩ := TypeShape.listed_elements hparts hlisted (by decide) hnodes
  have hshows : m.shows .parameter = true := by cases m <;> rfl
  rw [hchild, Option.map_some, Option.getD_some, Parameter.ofClause, Cursor.childrenOf_eq hshows]
  refine forall₂_map_congr (forall₂_of_map_eq htrees) fun e p h => ?_
  obtain ⟨⟨hmem, -⟩, htree⟩ := h
  refine p.ofFunction_eq m htree (fun m => ?_) (hsealed e hmem)
  exact Cursor.surroundedIn_of_mem_elements (List.mem_filter.mp hmem).1
    (by simp [hclause, clauseTree, nodeKind?]) (hclauseshown m)

theorem effects_eq (hc : c.tree = f.signatureTree) : Effects.ofCursor c = effectsOf f.effects := by
  have houtput : ∀ u ∈ f.outputTrees, u.nodeKind? ≠ some .effectSpecifiers := by
    rw [outputTrees]
    cases f.output <;> simp [blankTree, TypeShape.returnTree, nodeKind?]
  cases heffects : f.effects with
  | nil =>
    have hnone : c.child? .effectSpecifiers = none := by
      refine Cursor.child?_eq_none fun u hu => ?_
      have hmem := mem_children_of_mem_parts hu
      rw [hc, signatureTree, children, heffects] at hmem
      rcases List.mem_cons.mp hmem with rfl | hmem
      · exact (by decide : some NodeKind.parameterClause ≠ some .effectSpecifiers)
      · exact houtput u hmem
    rw [Effects.ofCursor, hnone]
    rfl
  | cons e es =>
    have htree : c.tree = .node .functionSignature ([f.clauseTree, blankTree] ++
        .node .effectSpecifiers (spacedTrees (e :: es)) :: f.outputTrees) := by
      rw [hc, signatureTree, heffects]
      rfl
    obtain ⟨list, -, hfind, hlist, -⟩ := Cursor.exists_find?_elements htree
      (p := fun u => u.nodeKind? == some .effectSpecifiers)
      (by simp [clauseTree, blankTree, nodeKind?]) rfl
    have hchild : c.child? .effectSpecifiers = some list := hfind
    rw [Effects.ofCursor, hchild]
    dsimp only
    rw [hlist]
    exact Effects.ofElements_spacedTrees (e :: es)

theorem output_eq (m : ViewMode) (hc : c.tree = f.signatureTree)
    (hshown : ∀ m, c.surroundedIn m = true) (hbehind : Sealed c.behind) :
    let output := (c.child? .returnClause).bind (Cursor.typeIn? m)
    output.map TypeShape.classify = f.output.map TypeText.shape ∧
      output.map Cursor.description = f.output.map fun r => Text.trim r.text := by
  have heffects : ∀ u ∈ f.clauseTree :: effectsTrees f.effects,
      u.nodeKind? ≠ some .returnClause := by
    cases f.effects <;> simp [clauseTree, effectsTrees, blankTree, nodeKind?]
  cases houtput : f.output with
  | none =>
    have hnone : c.child? .returnClause = none := by
      refine Cursor.child?_eq_none fun u hu => ?_
      have hmem := mem_children_of_mem_parts hu
      rw [hc, signatureTree, children, outputTrees, houtput, Option.elim_none,
        List.append_nil] at hmem
      exact heffects u hmem
    rw [hnone]
    exact ⟨rfl, rfl⟩
  | some r =>
    have htree : c.tree = .node .functionSignature
        ((f.clauseTree :: effectsTrees f.effects ++ [blankTree]) ++
          TypeShape.returnTree r.tree :: []) := by
      rw [hc, signatureTree, outputTrees, houtput, List.append_assoc]
      rfl
    have hfront : ∀ u ∈ f.clauseTree :: effectsTrees f.effects ++ [blankTree],
        (u.nodeKind? == some .returnClause) = false := by
      intro u hu
      rcases List.mem_append.mp hu with hu | hu
      · exact beq_false_of_ne (heffects u hu)
      · rw [List.mem_singleton.mp hu]
        rfl
    obtain ⟨clause, he, hfind, hclause, hclausebehind⟩ := Cursor.exists_find?_elements htree
      (p := fun u => u.nodeKind? == some .returnClause) hfront rfl
    have hchild : c.child? .returnClause = some clause := hfind
    have hclausetree : clause.tree = .node .returnClause ([.leaf ⟨.arrow, "->"⟩, blankTree] ++
        r.tree :: []) := hclause
    obtain ⟨t, ht, htype, httree, htbehind⟩ := Cursor.exists_find?_elements hclausetree
      (p := fun u => u.nodeKind?.any NodeKind.isType) (by simp [blankTree, nodeKind?])
      r.nodeKind?_tree
    have htypein : clause.typeIn? m = some t := (Cursor.typeIn?_eq m clause).trans htype
    have hshape : TypeShape.classify t = r.shape := by
      refine r.classify_eq (k := .returnClause) ht httree (by rw [hclausetree]; rfl) (by decide) ?_
        fun m => Cursor.surroundedIn_of_mem_elements he (by simp [hc, signatureTree, nodeKind?])
          (hshown m)
      rw [htbehind, hclausebehind]
      exact hbehind
    have htext : t.description = Text.trim r.text := by
      rw [Cursor.description, Cursor.text, httree, r.spells.text_eq]
    rw [hchild, Option.bind_some, htypein]
    exact ⟨congrArg some hshape, congrArg some htext⟩

/-- The signature of the function is the one that it is written with. -/
theorem signature_ofWritten (m : ViewMode) :
    Signature.ofCursor m (.ofWritten f) = f.signature m := by
  obtain ⟨c, hchild, hc, hshown, hbehind⟩ := f.exists_signature
  obtain ⟨houtput, houtputText⟩ := f.output_eq m hc hshown hbehind
  rw [Signature.ofCursor, hchild]
  dsimp only
  rw [f.input_eq m hc hshown, houtput, houtputText, f.effects_eq hc]
  rfl

/-- The declaration is read as a function with its body. -/
theorem read_ofWritten (m : ViewMode) : ∃ header, Declaration.read m (.ofWritten f) =
    [.mk header (.ofWritten f) (.function ⟨[], []⟩ (f.signature m) true [])] ∧
      header.name = Text.trim f.name.text := by
  have hread : Declaration.read m (.ofWritten f) =
      [.mk (Header.ofCursor m (.ofWritten f)) (.ofWritten f)
        (.function (Generics.ofCursor m (.ofWritten f)) (Signature.ofCursor m (.ofWritten f))
          true [])] := rfl
  have hgenerics : Generics.ofCursor m (.ofWritten f) = ⟨[], []⟩ := rfl
  rw [hread, hgenerics, f.signature_ofWritten]
  refine ⟨_, rfl, ?_⟩
  obtain ⟨name, hname, htree⟩ : ∃ name, (Cursor.ofWritten f).child? .declaredName = some name ∧
      name.tree = .node .declaredName [f.name.tree] := ⟨_, rfl, rfl⟩
  show Header.nameOf (.ofWritten f) = Text.trim f.name.text
  rw [Header.nameOf, hname]
  dsimp only
  rw [Cursor.description, Cursor.text, htree, f.name.spells.node.text_eq]

/-- A text that is a function is parsed without problems, and its outline is the function with the
    signature that is written. -/
theorem outline_text (m : ViewMode) : (parse f.text).diagnostics = [] ∧
    ∃ header place, Outline.ofSource m f.text =
        [.mk header place (.function ⟨[], []⟩ (f.signature m) true [])] ∧
      header.name = Text.trim f.name.text := by
  have hnodes : (Cursor.ofTree (parse f.text).tree).gather (visitDeclarations m) =
      [.ofWritten f] := by
    rw [f.parse_text]
    cases m <;> rfl
  obtain ⟨header, hread, hname⟩ := f.read_ofWritten m
  refine ⟨by rw [f.parse_text], header, .ofWritten f, ?_, hname⟩
  rw [Outline.ofSource, Outline.ofCursor, hnodes, ← hread]
  simp [Outline.ofNodes, DeclarationKind.all, Cursor.ofWritten, tree, nodeKind?,
    DeclarationKind.ofNode?]

/-- A function with each sort of label, an `inout`, dots, a default, two effects and a result. -/
theorem outline_text_of_mixed :
    let source := "func f(_ a: inout [Int], in b: Int..., c: Int = 1) async throws(E) -> [Int] \x7b\x7d"
    ∃ f : FunctionText, f.text = source ∧ (parse f.text).diagnostics = [] ∧
      ∃ header place signature, Outline.ofSource .sourceAccurate f.text =
          [.mk header place (.function ⟨[], []⟩ signature true [])] ∧
        header.name = "f" ∧
        signature.input.map (fun p => (p.label, p.name, p.typeText)) =
          [(none, some "a", some "inout [Int]"), (some "in", some "b", some "Int"),
            (some "c", some "c", some "Int")] ∧
        signature.input.map (fun p => (p.isInout, p.isVariadic, p.defaultValue)) =
          [(true, false, none), (false, true, none), (false, false, some "1")] ∧
        signature.outputText = some "[Int]" ∧
        signature.effects = ⟨some "async", some "throws(E)"⟩ := by
  intro source
  let int : TypeText := ⟨"Int", namedTree "Int", (FormsTree.named (by decide)).type,
    by decide +kernel, by decide +kernel⟩
  let ints : TypeText := ⟨"[Int]", arrayTree (namedTree "Int"), int.forms.array.type,
    by decide +kernel, by decide +kernel⟩
  let failure : TypeText := ⟨"E", namedTree "E", (FormsTree.named (by decide)).type,
    by decide +kernel, by decide +kernel⟩
  let unlabelled : LabelText := ⟨"_", .underscore, by decide +kernel, by decide⟩
  let reserved : LabelText := ⟨"in", .kwIn, by decide +kernel, by decide⟩
  let one : LiteralToken := ⟨"1", .intLiteral, by decide +kernel, by decide⟩
  let f : FunctionText :=
    { name := ⟨"f", by decide +kernel⟩
      parameters :=
        [{ label := some unlabelled, name := ⟨"a", by decide +kernel⟩, byReference := true,
           type := ints, variadic := false, default := none },
          { label := some reserved, name := ⟨"b", by decide +kernel⟩, byReference := false,
            type := int, variadic := true, default := none },
          { label := none, name := ⟨"c", by decide +kernel⟩, byReference := false,
            type := int, variadic := false, default := some one }]
      effects := [.async, .throwing failure]
      output := some ints }
  have htext : f.text = source := by decide +kernel
  obtain ⟨hclean, header, place, houtline, hname⟩ := f.outline_text .sourceAccurate
  refine ⟨f, htext, hclean, header, place, f.signature .sourceAccurate, houtline, ?_, ?_, ?_, ?_, ?_⟩
  · exact hname.trans (by decide +kernel)
  · decide +kernel
  · decide +kernel
  · decide +kernel
  · decide +kernel

/-- White space that names a type, as a character beyond ASCII can, is not in the text of the
    type. -/
theorem typeText_of_blank_name :
    let source := "func f(a: \u00a0) \x7b\x7d"
    lex "\u00a0" = [⟨.ident, "\u00a0"⟩] ∧ (parse source).diagnostics = [] ∧
      ((Outline.ofSource .sourceAccurate source).map fun d => match d.details with
        | .function _ signature _ _ => signature.input.map Parameter.typeText
        | _ => []) ≠ [[some "\u00a0"]] := by
  refine ⟨by decide +kernel, by decide +kernel, ?_⟩
  decide +kernel

end FunctionText

end SwiftOutline
