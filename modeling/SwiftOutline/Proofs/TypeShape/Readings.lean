/-
  SwiftOutline.Proofs.TypeShape.Readings

  What a type expression is read as, however the collections and optionals in it
  are spelled. Brackets and names lead to the same shape by different ways: a type
  in brackets is found as a child, an argument of a name among its generic
  arguments; a type is made optional by the mark around it, by the name `Optional`
  or by a mark that is found behind it; and a function type looks for a mark in the
  nodes around it. Each kind of type has one lemma here that says what it is read
  as if this is known of the types in it.
-/
import SwiftOutline.Proofs.TypeShape.Apart
import SwiftOutline.Proofs.TypeShape.Respelling

namespace SwiftOutline

open SwiftOutline.Tree
open Token (significant)

namespace TypeShape

variable {c d e : Cursor} {m n : Nat} {t u : Tree} {front back : List Tree}

/-! ## Shapes without spelling -/

mutual

/-- The shape without the texts of the types of its parameters. -/
def untexted : TypeShape → TypeShape
  | simple n o => simple n o
  | tuple es o => tuple (untextedAll es) o
  | closure i out e esc o => closure (untextedAll i) out.untexted e esc o
  | array t f o => array t.untexted f o
  | dictionary k v f o => dictionary k.untexted v.untexted f o
  | set t f o => set t.untexted f o
  | result s f o => result s.untexted f.untexted o
  | void o => void o
  | empty => empty

/-- Parameters without the texts of their types. -/
def untextedAll : List (Parameter TypeShape) → List (Parameter TypeShape)
  | [] => []
  | p :: ps => { p with type := p.type.untexted, typeText := none } :: untextedAll ps

end

/-- The shape with all collections spelled by name, and without the texts of types. -/
def unspelled (t : TypeShape) : TypeShape := (t.withForm .generic).untexted

/-- A parameter with its type in this way. -/
def unspelledParameter (p : Parameter TypeShape) : Parameter TypeShape :=
  { p with type := p.type.unspelled, typeText := none }

theorem untextedAll_withFormAll (ps : List (Parameter TypeShape)) :
    untextedAll (withFormAll .generic ps) = ps.map unspelledParameter := by
  induction ps with
  | nil => rfl
  | cons p ps ih => exact congrArg _ ih

section

variable (t k v : TypeShape) (ps : List (Parameter TypeShape)) (e : Effects) (f : SurfaceForm)
  (b esc o : Bool) (n : String)

@[simp] theorem unspelled_simple : (simple n o).unspelled = simple n o := rfl

@[simp] theorem unspelled_tuple : (tuple ps o).unspelled = tuple (ps.map unspelledParameter) o :=
  congrArg (tuple · o) (untextedAll_withFormAll ps)

@[simp] theorem unspelled_closure : (closure ps t e esc o).unspelled =
    closure (ps.map unspelledParameter) t.unspelled e esc o :=
  congrArg (closure · t.unspelled e esc o) (untextedAll_withFormAll ps)

@[simp] theorem unspelled_array : (array t f o).unspelled = array t.unspelled .generic o := rfl

@[simp] theorem unspelled_dictionary :
    (dictionary k v f o).unspelled = dictionary k.unspelled v.unspelled .generic o := rfl

@[simp] theorem unspelled_set : (set t f o).unspelled = set t.unspelled .generic o := rfl

@[simp] theorem unspelled_result :
    (result k v o).unspelled = result k.unspelled v.unspelled o := rfl

@[simp] theorem unspelled_void : (void o).unspelled = void o := rfl

@[simp] theorem unspelled_empty : empty.unspelled = empty := rfl

@[simp] theorem unspelled_optional : t.optional.unspelled = t.unspelled.optional := by
  cases t <;> simp [optional]

@[simp] theorem unspelled_withOptional :
    (t.withOptional b).unspelled = t.unspelled.withOptional b := by
  cases b with
  | false => rfl
  | true => exact unspelled_optional t

@[simp] theorem optional_withOptional : (t.withOptional b).optional = t.optional := by
  cases b with
  | false => rfl
  | true => exact optional_optional t

@[simp] theorem withOptional_optional : t.optional.withOptional b = t.optional := by
  cases b with
  | false => rfl
  | true => exact optional_optional t

end

/-! ## Marks behind parts -/

theorem Sealed.congr {ts us : List Token} (h : significant ts = significant us) (hus : Sealed us) :
    Sealed ts := by
  rwa [Sealed, h]

/-- The first type among the parts of a node. -/
theorem exists_inner_part (hparts : c.tree.parts = front ++ t :: back)
    (hfront : ∀ v ∈ front, v.nodeKind?.any NodeKind.isType = false)
    (ht : t.nodeKind?.any NodeKind.isType = true) :
    ∃ e ∈ c.elements, c.typeChild? = some e ∧ e.tree = t ∧
      significant e.behind = significant (forestLeaves back ++ c.behind) :=
  Cursor.exists_find?_part hparts (fun _ => rfl) hfront ht

/-- The elements of a list between brackets, as they are found among the children. -/
theorem listed_elements {close : TokenKind} {es ws : List Tree} {o : Token} {k : NodeKind}
    (hparts : c.tree.parts = .leaf o :: ws) (hlisted : Listed close es ws)
    (hclose : close ∈ [.gt, .rParen]) (hes : ∀ e ∈ es, e.nodeKind? = some k) :
    (c.elements.filter fun e => e.tree.nodeKind? == some k).map Cursor.tree = es ∧
      ∀ e ∈ c.elements.filter fun e => e.tree.nodeKind? == some k, Sealed e.behind := by
  rw [Cursor.filter_elements_eq (p := fun t => t.nodeKind? == some k) (fun _ => rfl)]
  constructor
  · have hfilter := hlisted.filter_eq (p := fun t => t.nodeKind? == some k) (fun _ => rfl)
      fun e he => by simp [hes e he]
    have hmap : (c.parts.filter fun e => e.tree.nodeKind? == some k).map Cursor.tree =
        c.tree.parts.filter fun t => t.nodeKind? == some k := by
      rw [← Cursor.map_tree_parts, List.filter_map]
      rfl
    rw [hmap, hparts, List.filter_cons_of_neg (by simp [nodeKind?]), hfilter]
  · intro e he
    obtain ⟨hmem, hk⟩ := List.mem_filter.mp he
    have hk : e.tree.nodeKind? = some k := eq_of_beq hk
    obtain ⟨xs, ys, hsplit⟩ := List.append_of_mem hmem
    have htrees : Tree.leaf o :: ws = xs.map Cursor.tree ++ e.tree :: ys.map Cursor.tree := by
      rw [← hparts, ← Cursor.map_tree_parts, hsplit, List.map_append, List.map_cons]
    obtain ⟨b, rest, hys, hb⟩ : ∃ b rest, ys.map Cursor.tree = .leaf b :: rest ∧
        (b.kind = .comma ∨ b.kind = close) := by
      cases xs with
      | nil =>
        obtain ⟨ho, -⟩ := List.cons.inj htrees
        rw [← ho] at hk
        exact absurd hk.symm (Option.some_ne_none k)
      | cons x xs => exact hlisted.exists_next (List.cons.inj htrees).2 hk
    have hbehind := Cursor.significant_behind_of_parts_eq hsplit
    rw [hys] at hbehind
    refine Sealed.congr hbehind (Sealed.of_kind (v := b) ?_ _)
    have hclosing : ∀ k ∈ [TokenKind.gt, .rParen],
        k ∈ [.comma, .colon, .ellipsis, .gt, .rBracket, .rParen] := by decide
    rcases hb with hb | hb
    · rw [hb]
      decide
    · rw [hb]
      exact hclosing close hclose

/-! ## Readings -/

/-- What is known of a type without its surroundings. -/
structure Reading where
  shape : TypeShape
  /-- The type is a function type, which the nodes around it can make optional. -/
  isFunction : Bool
  /-- The type is one for a value that is passed by reference. -/
  isInout : Bool

/-- Whether a tree has `inout` in front of a type. -/
def isInoutTree (u : Tree) : Bool :=
  u.nodeKind? == some .attributedType && u.children.any fun v => (Cursor.ofTree v).isToken .kwInout

/-- Wherever it stands outside attributes, a tree is read in this way, up to spelling. What stands
    behind a type matters to no operand but for whether it is optional. -/
structure Reads (u : Tree) (r : Reading) : Prop where
  isType : u.nodeKind?.any NodeKind.isType = true
  isInout : isInoutTree u = r.isInout
  attributes : u.nodeKind? = some .attributedType →
    ∀ v ∈ u.parts, v.nodeKind? ≠ some .attributeList
  sealed : ∀ n (c : Cursor), c.tree = u → u.height ≤ n → (wrapping c.ancestors).2 = false →
    Sealed c.behind → (classifyWithin n c).unspelled =
      r.shape.withOptional (r.isFunction && (wrapping c.ancestors).1)
  operand : IsOperand u → ∀ n (c : Cursor), c.tree = u → u.height ≤ n →
    (wrapping c.ancestors).2 = false → (classifyWithin n c).unspelled.optional = r.shape.optional

namespace Reads

variable {r : Reading} {k : NodeKind} {s : TypeShape} {f : Bool}

/-- Where it stands apart, a type is read as its shape. -/
theorem of_apart (h : Reads u r) (hc : c.tree = u) (hn : u.height ≤ n) (hapart : Apart c) :
    (classifyWithin n c).unspelled = r.shape := by
  rw [h.sealed n c hc hn (by rw [hapart.around]) hapart.behind, hapart.around, Bool.and_false]
  rfl

/-- A type is read in some way if the tokens behind it do not matter. -/
theorem of_wrapping (hu : u.nodeKind? = some k) (hk : k.isType = true) (hne : k ≠ .attributedType)
    (h : ∀ n (c : Cursor), c.tree = u → u.height ≤ n → (wrapping c.ancestors).2 = false →
      (classifyWithin n c).unspelled = s.withOptional (f && (wrapping c.ancestors).1)) :
    Reads u ⟨s, f, false⟩ where
  isType := by rw [hu, Option.any_some, hk]
  isInout := by simp [isInoutTree, hu, hne]
  attributes hattributed := absurd (Option.some.inj (hu.symm.trans hattributed)) hne
  sealed n c hc hn haround _ := h n c hc hn haround
  operand _ n c hc hn haround := by rw [h n c hc hn haround, optional_withOptional]

/-- A type is read in some way if it is optional only where a mark is found behind it. -/
theorem of_mark (hu : u.nodeKind? = some k) (hk : k.isType = true) (hne : k ≠ .attributedType)
    (h : ∀ n (c : Cursor), c.tree = u → u.height ≤ n →
      (classifyWithin n c).unspelled = s.withOptional (isMarkedOptional c)) :
    Reads u ⟨s, false, false⟩ where
  isType := by rw [hu, Option.any_some, hk]
  isInout := by simp [isInoutTree, hu, hne]
  attributes hattributed := absurd (Option.some.inj (hu.symm.trans hattributed)) hne
  sealed n c hc hn _ hbehind := by
    rw [h n c hc hn, isMarkedOptional_eq_false hbehind, Bool.false_and]
  operand _ n c hc hn _ := by rw [h n c hc hn, optional_withOptional]

/-! ### Brackets -/

/-- `[T]`. -/
theorem bracketArray {us : List Tree} {o b : Token} (h : Reads t r)
    (hparts : (Tree.node .arrayType us).parts = [.leaf o, t, .leaf b]) (hb : b.kind = .rBracket) :
    Reads (.node .arrayType us) ⟨array r.shape .generic false, false, false⟩ := by
  refine of_mark rfl rfl (by decide) fun n c hc hn => ?_
  obtain ⟨m, rfl, hlevels⟩ := exists_levels hc (hc ▸ hn)
  have hcparts : c.tree.parts = [Tree.leaf o] ++ t :: [.leaf b] := hc ▸ hparts
  obtain ⟨e, he, hchild, het, hbehind⟩ :=
    exists_inner_part hcparts (by simp [nodeKind?]) h.isType
  have hshape : classifyWithin (m + 1) c =
      (array (inner (classifyWithin m) c) .bracket false).withOptional (isMarkedOptional c) := by
    rw [classifyWithin, classifyWith, hc]
    rfl
  have hapart : Apart e := by
    refine .of_mem he (k := .arrayType) (by rw [hc]; rfl) (by decide) ?_
    exact .congr hbehind (.of_kind (by rw [hb]; decide) _)
  rw [hshape, inner, hchild, unspelled_withOptional, unspelled_array]
  congr
  exact h.of_apart het (het ▸ hlevels e he) hapart

/-- `[K: V]`. -/
theorem bracketDictionary {us : List Tree} {o a b : Token} {k v : Tree} {r r' : Reading}
    (h : Reads k r) (h' : Reads v r')
    (hparts : (Tree.node .dictionaryType us).parts = [.leaf o, k, .leaf a, v, .leaf b])
    (ha : a.kind = .colon) (hb : b.kind = .rBracket) :
    Reads (.node .dictionaryType us)
      ⟨dictionary r.shape r'.shape .generic false, false, false⟩ := by
  refine of_mark rfl rfl (by decide) fun n c hc hn => ?_
  obtain ⟨m, rfl, hlevels⟩ := exists_levels hc (hc ▸ hn)
  have hmap : c.parts.map Cursor.tree = [.leaf o, k, .leaf a, v, .leaf b] := by
    rw [Cursor.map_tree_parts, hc, hparts]
  obtain ⟨x, xs, hcparts, hx, hmap⟩ := List.map_eq_cons_iff.mp hmap
  obtain ⟨d, ds, rfl, hd, hmap⟩ := List.map_eq_cons_iff.mp hmap
  obtain ⟨y, ys, rfl, hy, hmap⟩ := List.map_eq_cons_iff.mp hmap
  obtain ⟨e, es, rfl, he, hmap⟩ := List.map_eq_cons_iff.mp hmap
  obtain ⟨z, zs, rfl, hz, hmap⟩ := List.map_eq_cons_iff.mp hmap
  obtain rfl := List.map_eq_nil_iff.mp hmap
  have htypes : c.children.filter Cursor.isType = [d, e] := by
    have hfilter := Cursor.filter_elements_eq
      (p := fun t => t.nodeKind?.any NodeKind.isType) (fun _ => rfl) c
    have hleaf : ∀ b : Token, (Tree.leaf b).nodeKind?.any NodeKind.isType = false := fun _ => rfl
    rw [hcparts] at hfilter
    rw [c.filter_isType_children]
    refine hfilter.trans ?_
    simp [hx, hd, hy, he, hz, hleaf, h.isType, h'.isType]
  have hmem : ∀ x ∈ c.parts, x ∈ c.elements := fun x hx => Cursor.mem_elements_of_mem_parts hx
  have hapart : ∀ x ∈ c.elements, Sealed x.behind → Apart x := fun x hx =>
    .of_mem hx (k := .dictionaryType) (by rw [hc]; rfl) (by decide)
  have hdmem : d ∈ c.elements := hmem d (by simp [hcparts])
  have hemem : e ∈ c.elements := hmem e (by simp [hcparts])
  have hdbehind : Sealed d.behind := by
    have hsplit : c.parts = [x] ++ d :: [y, e, z] := hcparts
    have hbehind := Cursor.significant_behind_of_parts_eq hsplit
    rw [List.map_cons, hy] at hbehind
    exact .congr hbehind (.of_kind (by rw [ha]; decide) _)
  have hebehind : Sealed e.behind := by
    have hsplit : c.parts = [x, d, y] ++ e :: [z] := hcparts
    have hbehind := Cursor.significant_behind_of_parts_eq hsplit
    rw [List.map_cons, hz] at hbehind
    exact .congr hbehind (.of_kind (by rw [hb]; decide) _)
  have hshape : classifyWithin (m + 1) c =
      (dictionary (classifyWithin m d) (classifyWithin m e) .bracket false).withOptional
        (isMarkedOptional c) := by
    rw [classifyWithin, classifyWith, hc]
    show (dictionary (((c.children.filter Cursor.isType).map _).head?.getD _) _ _ _).withOptional _
      = _
    rw [htypes]
    rfl
  rw [hshape, unspelled_withOptional, unspelled_dictionary,
    h.of_apart hd (hd ▸ hlevels d hdmem) (hapart d hdmem hdbehind),
    h'.of_apart he (he ▸ hlevels e hemem) (hapart e hemem hebehind)]

/-! ### Marks -/

/-- A mark around a type makes it optional, whether it is also found behind the type or not. -/
theorem marked {k : NodeKind} {us : List Tree} {q : Token} (h : Reads t r) (ht : IsOperand t)
    (hk : k ∈ [.optionalType, .implicitlyUnwrappedOptionalType])
    (hparts : (Tree.node k us).parts = [t, .leaf q]) :
    Reads (.node k us) ⟨r.shape.optional, false, false⟩ := by
  have hkinds : ∀ k ∈ [NodeKind.optionalType, .implicitlyUnwrappedOptionalType],
      k.isType = true ∧ k ≠ .attributedType := by decide
  refine of_wrapping rfl (hkinds k hk).1 (hkinds k hk).2 fun n c hc hn haround => ?_
  obtain ⟨m, rfl, hlevels⟩ := exists_levels hc (hc ▸ hn)
  have hcparts : c.tree.parts = [] ++ t :: [.leaf q] := hc ▸ hparts
  obtain ⟨e, he, hchild, het, -⟩ := exists_inner_part hcparts (by simp) h.isType
  have hcases : k = .optionalType ∨ k = .implicitlyUnwrappedOptionalType := by simpa using hk
  have hshape : classifyWithin (m + 1) c = (inner (classifyWithin m) c).optional := by
    rw [classifyWithin, classifyWith, hc]
    rcases hcases with rfl | rfl <;> rfl
  have hinside : (wrapping e.ancestors).2 = false := by
    rw [Cursor.ancestors_of_mem_elements he, Cursor.path, wrapping, hc]
    rcases hcases with rfl | rfl <;> exact haround
  rw [hshape, inner, hchild, unspelled_optional, Bool.false_and]
  exact h.operand ht m e het (het ▸ hlevels e he) hinside

/-! ### Specifiers -/

/-- Tokens are no nodes. -/
theorem nodeKind?_of_mem_words {words : List Token} {v : Tree}
    (h : v ∈ words.map Tree.leaf) : v.nodeKind? = none := by
  obtain ⟨w, -, rfl⟩ := List.mem_map.mp h
  rfl

/-- The tokens of a kind among tokens in front of a type. -/
theorem any_isToken_words (words : List Token) (ht : t.nodeKind?.any NodeKind.isType = true)
    (k : TokenKind) :
    ((words.map Tree.leaf ++ [t]).any fun v => (Cursor.ofTree v).isToken k) =
      words.any fun w => w.kind == k := by
  rw [List.any_append, List.any_cons, isToken_of_isType ht, List.any_nil, Bool.or_self,
    Bool.or_false, List.any_map]
  rfl

/-- `inout T`. -/
theorem specified {us : List Tree} {words : List Token} (h : Reads t r)
    (hparts : (Tree.node .attributedType us).parts = words.map .leaf ++ [t]) :
    Reads (.node .attributedType us)
      ⟨r.shape, r.isFunction, words.any fun w => w.kind == .kwInout⟩ := by
  have hkinds : ∀ v ∈ (Tree.node .attributedType us).parts, v.nodeKind? ≠ some .attributeList := by
    intro v hv
    rw [hparts] at hv
    rcases List.mem_append.mp hv with hv | hv
    · simp [nodeKind?_of_mem_words hv]
    · obtain rfl := List.mem_singleton.mp hv
      intro hkind
      have htype := h.isType
      rw [hkind] at htype
      exact nomatch htype
  refine ⟨rfl, ?_, fun _ => hkinds, fun n c hc hn haround hbehind => ?_, fun hoperand => ?_⟩
  · rw [isInoutTree, any_isToken_children rfl, hparts, any_isToken_words words h.isType]
    rfl
  · obtain ⟨m, rfl, hlevels⟩ := exists_levels hc (hc ▸ hn)
    have hcparts : c.tree.parts = words.map .leaf ++ t :: [] := hc ▸ hparts
    obtain ⟨e, he, hchild, het, hebehind⟩ :=
      exists_inner_part hcparts (fun v hv => by rw [nodeKind?_of_mem_words hv]; rfl) h.isType
    have hinside : wrapping e.ancestors = wrapping c.ancestors := by
      rw [Cursor.ancestors_of_mem_elements he, Cursor.path, wrapping, hc]
      show ((wrapping c.ancestors).1, ((wrapping c.ancestors).2 || _)) = _
      rw [Attribute.allIn_eq_nil (hc ▸ hkinds), List.any_nil, Bool.or_false]
    have hshape : classifyWithin (m + 1) c = inner (classifyWithin m) c := by
      rw [classifyWithin, classifyWith, hc]
      rfl
    rw [hshape, inner, hchild, ← hinside]
    exact h.sealed m e het (het ▸ hlevels e he) (hinside ▸ haround) (.congr hebehind hbehind)
  · exact absurd rfl hoperand.2

end Reads

/-! ### Elements of tuples and parameters of functions -/

/-- A parameter that is read from an element of a tuple type, with the tokens `words` in front of
    its type. -/
def readParameter (words : List Token) (r : Reading) : Parameter TypeShape :=
  let (written, colon) := Parameter.namesOf (words.map .leaf)
  let names := if colon then written else []
  { label := names.head?.bind Parameter.named
    name := (names[1]?.or names.head?).bind Parameter.named
    type := r.shape
    typeText := none
    isVariadic := false
    isInout := r.isInout
    defaultValue := none
    attributes := []
    isLabelOmitted := names.head? == some "_" }

/-- Trivia among the names are skipped. -/
theorem namesOf_filter (ts : List Tree) :
    Parameter.namesOf (ts.filter fun t => !t.isTriviaLeaf) = Parameter.namesOf ts := by
  induction ts with
  | nil => rfl
  | cons t ts ih =>
    cases t with
    | node k children =>
      rw [List.filter_cons_of_pos rfl, Parameter.namesOf, Parameter.namesOf, ih]
    | leaf b =>
      cases hb : b.isTrivia with
      | false =>
        rw [List.filter_cons_of_pos (by simp [hb]), Parameter.namesOf, Parameter.namesOf, ih]
      | true =>
        have hcolon : (b.kind == .colon) = false := by
          cases hk : b.kind == .colon with
          | false => rfl
          | true => simp [Token.isTrivia, eq_of_beq hk, TokenKind.isTrivia] at hb
        rw [List.filter_cons_of_neg (by simp [hb]), ih, Parameter.namesOf, hcolon, hb]
        simp

/-- The names of an element stand in front of its type. -/
theorem namesOf_words (words : List Token) (ht : t.nodeKind?.any NodeKind.isType = true) :
    Parameter.namesOf (words.map .leaf ++ [t]) = Parameter.namesOf (words.map .leaf) := by
  induction words with
  | nil =>
    cases t with
    | leaf b => exact nomatch ht
    | node k children =>
      have hk : k.isType = true := ht
      simp [Parameter.namesOf, hk]
  | cons w words ih => rw [List.map_cons, List.cons_append, Parameter.namesOf, Parameter.namesOf, ih]

variable {r : Reading} {words : List Token} {us : List Tree}

/-- There are no dots in an element. -/
theorem hasToken_ellipsis_eq_false (hcparts : c.tree.parts = words.map .leaf ++ [t])
    (hdots : ∀ w ∈ words, w.kind ≠ .ellipsis) (ht : t.nodeKind?.any NodeKind.isType = true) :
    c.hasToken .ellipsis = false := by
  rw [Cursor.hasToken_eq, any_isToken_children rfl, hcparts, Reads.any_isToken_words words ht,
    List.any_eq_false]
  intro w hw
  simpa using hdots w hw

/-- An element is read as a parameter. -/
theorem Reads.unspelledParameter_ofElement (h : Reads t r)
    (hparts : (Tree.node .tupleTypeElement us).parts = words.map .leaf ++ [t])
    (hdots : ∀ w ∈ words, w.kind ≠ .ellipsis) (hc : c.tree = .node .tupleTypeElement us)
    (hn : c.tree.height ≤ n) (hbehind : Sealed c.behind)
    (haround : wrapping c.ancestors = (false, false)) :
    unspelledParameter (ofElement (classifyWithin n) c) = readParameter words r := by
  have hcparts : c.tree.parts = words.map .leaf ++ t :: [] := hc ▸ hparts
  obtain ⟨e, he, hchild, het, hebehind⟩ := exists_inner_part hcparts
    (fun v hv => by rw [Reads.nodeKind?_of_mem_words hv]; rfl) h.isType
  have hapart : Apart e := by
    refine ⟨?_, .congr hebehind hbehind⟩
    rw [Cursor.ancestors_of_mem_elements he, Cursor.path, wrapping, hc]
    exact haround
  have hheight : t.height ≤ n := by
    have hlt := height_lt_of_mem_children (Cursor.tree_mem_children he)
    rw [het] at hlt
    omega
  have htype : c.typeIn? .sourceAccurate = some e := (c.typeIn?_eq _).trans hchild
  have hnames : Parameter.namesOf c.tree.children = Parameter.namesOf (words.map .leaf) := by
    rw [← namesOf_filter, ← namesOf_words words h.isType]
    exact congrArg Parameter.namesOf hcparts
  have hellipsis := hasToken_ellipsis_eq_false hcparts hdots h.isType
  have hkinds : ∀ v ∈ c.tree.parts, v.nodeKind? = none ∨ v = t := by
    intro v hv
    rw [hcparts] at hv
    rcases List.mem_append.mp hv with hv | hv
    · exact .inl (Reads.nodeKind?_of_mem_words hv)
    · exact .inr (List.mem_singleton.mp hv)
  have hother : ∀ k : NodeKind, k.isType = false → ∀ v ∈ c.tree.parts, v.nodeKind? ≠ some k := by
    intro k hk v hv hvk
    rcases hkinds v hv with hnone | rfl
    · exact absurd (hvk.symm.trans hnone) (Option.some_ne_none k)
    · have htype := h.isType
      rw [hvk, Option.any_some, hk] at htype
      exact absurd htype Bool.false_ne_true
  have hinitial : initialValue? .sourceAccurate c = none := by
    rw [initialValue?, Cursor.child?_eq_none (hother .initializerClause rfl)]
    rfl
  have hattributes : Attribute.allIn .sourceAccurate c = [] :=
    Attribute.allIn_eq_nil (hother .attributeList rfl)
  have hinner : ((some e).filter fun x => x.isKind .attributedType).toList.flatMap
      (Attribute.allIn .sourceAccurate) = [] := by
    cases hk : e.isKind .attributedType with
    | false => simp [Option.filter_some, hk]
    | true =>
      have hkind : t.nodeKind? = some .attributedType := by
        rw [← het]
        exact eq_of_beq hk
      simpa [Option.filter_some, hk] using Attribute.allIn_eq_nil (het ▸ h.attributes hkind)
  have hinout : (((some e).filter fun x => x.isKind .attributedType).any
      fun x => x.hasToken .kwInout) = r.isInout := by
    rw [← h.isInout, isInoutTree, ← het]
    cases hk : e.isKind .attributedType with
    | false =>
      have hkind : (e.tree.nodeKind? == some .attributedType) = false := hk
      simp [Option.filter_some, hk, hkind]
    | true =>
      have hkind : (e.tree.nodeKind? == some .attributedType) = true := hk
      simp [Option.filter_some, hk, hkind, Cursor.hasToken_eq]
  rw [ofElement, Parameter.ofCursorWith, readParameter, hnames, htype, hinitial, hattributes,
    hellipsis]
  obtain ⟨written, colon⟩ := Parameter.namesOf (words.map .leaf)
  dsimp only
  rw [hinner, hinout]
  simp only [unspelledParameter, Option.map_some, Option.getD_some,
    h.of_apart het hheight hapart]
  cases colon <;> rfl

/-- Elements are read as parameters. -/
theorem map_unspelledParameter {labels : List (List Token)} {ts es : List Tree}
    {rs : List Reading} {xs : List Cursor} (h : AreElements labels ts es)
    (hreads : List.Forall₂ Reads ts rs) (hxs : xs.map Cursor.tree = es)
    (hall : ∀ x ∈ xs, x.tree.height ≤ n ∧ Sealed x.behind ∧ wrapping x.ancestors = (false, false)) :
    (xs.map (ofElement (classifyWithin n))).map unspelledParameter =
      List.zipWith readParameter labels rs := by
  induction h generalizing rs xs with
  | nil =>
    obtain rfl := List.map_eq_nil_iff.mp hxs
    cases hreads
    rfl
  | cons parts dots _ ih =>
    obtain ⟨x, xs, rfl, hx, hxs⟩ := List.map_eq_cons_iff.mp hxs
    cases hreads with
    | cons hr hrs =>
      obtain ⟨⟨hn, hbehind, haround⟩, hall⟩ := List.forall_mem_cons.mp hall
      rw [List.map_cons, List.map_cons, ih hrs hxs hall, List.zipWith_cons_cons,
        hr.unspelledParameter_ofElement parts dots hx hn hbehind haround]

theorem AreElements.nodeKind?_eq {labels : List (List Token)} {ts es : List Tree}
    (h : AreElements labels ts es) : ∀ e ∈ es, e.nodeKind? = some .tupleTypeElement := by
  induction h with
  | nil => exact fun _ he => absurd he List.not_mem_nil
  | cons _ _ _ ih => exact List.forall_mem_cons.mpr ⟨rfl, ih⟩

theorem AreElements.length_eq {labels : List (List Token)} {ts es : List Tree}
    (h : AreElements labels ts es) : es.length = ts.length := by
  induction h with
  | nil => rfl
  | cons _ _ _ ih => rw [List.length_cons, List.length_cons, ih]

/-- The elements of a tuple type, as they are found among the children. -/
theorem IsTuple.exists_elements {labels : List (List Token)} {ts : List Tree}
    (h : IsTuple labels ts u) (hc : c.tree = u) :
    AreElements labels ts ((tupleElements c).map Cursor.tree) ∧
      ∀ e ∈ tupleElements c, Sealed e.behind := by
  obtain ⟨parts, listed, elements⟩ := h
  have hfound := listed_elements (hc ▸ parts) listed (by decide) elements.nodeKind?_eq
  rw [← tupleElements_eq] at hfound
  exact ⟨hfound.1 ▸ elements, hfound.2⟩

/-- A tuple type is `Void` without elements and its only element in parentheses. -/
def Reading.ofTuple (labels : List (List Token)) : List Reading → Reading
  | [] => ⟨void false, false, false⟩
  | [r] => ⟨r.shape, r.isFunction, false⟩
  | rs => ⟨tuple (List.zipWith readParameter labels rs) false, false, false⟩

/-- `(A, label: B)` and `(A)`. -/
theorem Reads.tuple {labels : List (List Token)} {ts : List Tree} {rs : List Reading}
    (hu : IsTuple labels ts u) (h : List.Forall₂ Reads ts rs) :
    Reads u (.ofTuple labels rs) := by
  have hkind : u.nodeKind? = some .tupleType := by
    cases hu
    rfl
  have hshape : ∀ m (c : Cursor), c.tree = u →
      classifyWithin (m + 1) c = TypeShape.ofTuple (classifyWithin m) c := by
    intro m c hc
    rw [classifyWithin, classifyWith, hc, hkind]
  cases h with
  | nil =>
    refine of_wrapping hkind rfl (by decide) fun n c hc hn _ => ?_
    obtain ⟨us, hus⟩ : ∃ us, u = .node .tupleType us := by
      cases hu
      exact ⟨_, rfl⟩
    obtain ⟨m, rfl, -⟩ := exists_levels (hc.trans hus) (hc ▸ hn)
    obtain ⟨helements, -⟩ := hu.exists_elements hc
    have hnil : tupleElements c = [] :=
      List.eq_nil_of_length_eq_zero (by simpa using helements.length_eq)
    rw [hshape m c hc, TypeShape.ofTuple, hnil]
    exact unspelled_void false
  | @cons t r ts rs hr hrs =>
    cases hrs with
    | nil =>
      refine of_wrapping hkind rfl (by decide) fun n c hc hn haround => ?_
      obtain ⟨us, hus⟩ : ∃ us, u = .node .tupleType us := by
        cases hu
        exact ⟨_, rfl⟩
      obtain ⟨m, rfl, hlevels⟩ := exists_levels (hc.trans hus) (hc ▸ hn)
      obtain ⟨helements, hsealed⟩ := hu.exists_elements hc
      obtain ⟨e, he⟩ : ∃ e, tupleElements c = [e] :=
        List.length_eq_one_iff.mp (by simpa using helements.length_eq)
      have hmem := mem_elements_of_mem_tupleElements (he ▸ List.mem_singleton_self e)
      have hebehind := hsealed e (he ▸ List.mem_singleton_self e)
      rw [he, List.map_singleton] at helements
      obtain ⟨us, hetree, words, hparts, hdots⟩ : ∃ us, e.tree = .node .tupleTypeElement us ∧
          ∃ words : List Token, (Tree.node .tupleTypeElement us).parts = words.map .leaf ++ [t] ∧
            ∀ w ∈ words, w.kind ≠ .ellipsis := by
        generalize e.tree = tree at helements
        cases helements with
        | cons parts dots _ => exact ⟨_, rfl, _, parts, dots⟩
      have hcparts : e.tree.parts = words.map .leaf ++ t :: [] := hetree ▸ hparts
      obtain ⟨x, hx, hchild, hxt, hxbehind⟩ := exists_inner_part hcparts
        (fun v hv => by rw [nodeKind?_of_mem_words hv]; rfl) hr.isType
      have hellipsis := hasToken_ellipsis_eq_false hcparts hdots hr.isType
      have hwrapping : wrapping x.ancestors = wrapping c.ancestors := by
        rw [Cursor.ancestors_of_mem_elements hx, Cursor.path, wrapping, hetree,
          Cursor.ancestors_of_mem_elements hmem, Cursor.path]
        show wrapping (c :: c.ancestors) = _
        rw [wrapping, hc, hus]
        show (if (tupleElements c).length == 1 then _ else _) = _
        rw [he]
        rfl
      have hheight : t.height ≤ m := by
        have hlt := height_lt_of_mem_children (Cursor.tree_mem_children hx)
        have hle := hlevels e hmem
        rw [hxt] at hlt
        omega
      rw [hshape m c hc, TypeShape.ofTuple, he]
      dsimp only
      rw [hellipsis, if_neg (by decide), inner, hchild, ← hwrapping]
      exact hr.sealed m x hxt hheight (hwrapping ▸ haround) (.congr hxbehind hebehind)
    | @cons t' r' ts rs hr' hrs =>
      refine of_wrapping hkind rfl (by decide) fun n c hc hn haround => ?_
      obtain ⟨us, hus⟩ : ∃ us, u = .node .tupleType us := by
        cases hu
        exact ⟨_, rfl⟩
      obtain ⟨m, rfl, hlevels⟩ := exists_levels (hc.trans hus) (hc ▸ hn)
      obtain ⟨helements, hsealed⟩ := hu.exists_elements hc
      obtain ⟨e, e', es, hes⟩ : ∃ e e' es, tupleElements c = e :: e' :: es := by
        have hlength := helements.length_eq
        rw [List.length_map] at hlength
        cases hxs : tupleElements c with
        | nil => exact absurd hlength (by simp [hxs])
        | cons e xs =>
          cases xs with
          | nil => exact absurd hlength (by simp [hxs])
          | cons e' es => exact ⟨e, e', es, rfl⟩
      have hread := map_unspelledParameter helements (.cons hr (.cons hr' hrs)) rfl
        (n := m) fun x hx => by
          have hmem := mem_elements_of_mem_tupleElements hx
          refine ⟨hlevels x hmem, hsealed x hx, ?_⟩
          rw [Cursor.ancestors_of_mem_elements hmem, Cursor.path, wrapping, hc, hus]
          show (if (tupleElements c).length == 1 then _ else _) = _
          rw [hes]
          rfl
      have htuple : TypeShape.ofTuple (classifyWithin m) c =
          .tuple ((tupleElements c).map (ofElement (classifyWithin m))) false := by
        rw [TypeShape.ofTuple, hes]
      rw [hshape m c hc, htuple, unspelled_tuple, hread, Bool.false_and]
      rfl

/-! ### Function types -/

/-- The effects in the first of the trees that hold effect specifiers. -/
def effectsOf : List Tree → Effects
  | [] => {}
  | e :: _ => Effects.ofElements {} none e.children

/-- The effects of a function type depend on its specifiers only. -/
theorem ofCursor_eq_effectsOf {input : Tree} {effects : List Tree}
    (hparts : c.tree.parts = input :: (effects ++ back)) (hinput : input.nodeKind? = some .tupleType)
    (heffects : ∀ e ∈ effects, e.nodeKind? = some .effectSpecifiers)
    (hback : ∀ v ∈ back, v.nodeKind? ≠ some .effectSpecifiers) :
    Effects.ofCursor c = effectsOf effects := by
  cases effects with
  | nil =>
    have hnone : c.child? .effectSpecifiers = none := by
      refine Cursor.child?_eq_none fun v hv => ?_
      rw [hparts] at hv
      rcases List.mem_cons.mp hv with rfl | hv
      · simp [hinput]
      · exact hback v hv
    rw [Effects.ofCursor, hnone, effectsOf]
  | cons e effects =>
    have hcparts : c.tree.parts = [input] ++ e :: (effects ++ back) := hparts
    obtain ⟨x, -, hchild, hx, -⟩ := Cursor.exists_child?_part hcparts (by simp [hinput])
      (heffects e List.mem_cons_self)
    rw [Effects.ofCursor, hchild, effectsOf, ← hx]

/-- `(A, label: B) async throws -> C`. -/
theorem Reads.function {labels : List (List Token)} {ts effects : List Tree} {out : Tree}
    {rs : List Reading} (hu : IsFunction labels ts effects out u) (h : List.Forall₂ Reads ts rs)
    (hout : Reads out r) :
    Reads u ⟨closure (List.zipWith readParameter labels rs) r.shape (effectsOf effects) false false,
      true, false⟩ := by
  obtain ⟨hparts, htuple, hspecifiers, hresult⟩ := hu
  rename_i us vs input a
  have hinputkind : input.nodeKind? = some .tupleType := by
    cases htuple
    rfl
  refine ⟨rfl, rfl, (absurd · (by simp [nodeKind?])), fun n c hc hn haround hbehind => ?_,
    fun hoperand => absurd rfl hoperand.1⟩
  obtain ⟨m, rfl, hlevels⟩ := exists_levels hc (hc ▸ hn)
  -- the parentheses in front
  have hinput : c.tree.parts = [] ++ input :: (effects ++ [Tree.node .returnClause vs]) :=
    hc ▸ hparts
  obtain ⟨i, hi, hichild, hit, -⟩ := Cursor.exists_child?_part hinput (by simp) hinputkind
  obtain ⟨helements, hsealed⟩ := htuple.exists_elements hit
  have hparameters := map_unspelledParameter helements h rfl (n := m) fun x hx => by
    have hmem := mem_elements_of_mem_tupleElements hx
    have hlt := height_lt_of_mem_children (Cursor.tree_mem_children hmem)
    have hle := hlevels i hi
    refine ⟨by omega, hsealed x hx, ?_⟩
    -- a function type is around the parentheses
    have hfunction : wrapping c.path = (false, false) := by
      rw [Cursor.path, wrapping, hc]
      rfl
    rw [Cursor.ancestors_of_mem_elements hmem, Cursor.path, Cursor.ancestors_of_mem_elements hi,
      wrapping, hit, hinputkind, hfunction]
    exact ite_self _
  -- the result behind the arrow
  have hreturn : c.tree.parts = (input :: effects) ++ Tree.node .returnClause vs :: [] :=
    hc ▸ hparts
  obtain ⟨q, hq, hqchild, hqt, hqbehind⟩ := Cursor.exists_child?_part
    (k := .returnClause) hreturn
    (List.forall_mem_cons.mpr ⟨by simp [hinputkind], fun e he => by simp [hspecifiers e he]⟩) rfl
  have hqparts : q.tree.parts = [Tree.leaf a] ++ out :: [] := hqt ▸ hresult
  obtain ⟨x, hx, hxchild, hxt, hxbehind⟩ :=
    exists_inner_part hqparts (by simp [nodeKind?]) hout.isType
  have hread : (inner (classifyWithin m) q).unspelled = r.shape := by
    have hlt := height_lt_of_mem_children (Cursor.tree_mem_children hx)
    have hle := hlevels q hq
    have hapart : Apart x := .of_mem hx (k := .returnClause) (by rw [hqt]; rfl) (by decide)
      (.congr hxbehind (.congr hqbehind hbehind))
    rw [hxt] at hlt
    rw [inner, hxchild]
    exact hout.of_apart hxt (by omega) hapart
  have heffects : Effects.ofCursor c = effectsOf effects :=
    ofCursor_eq_effectsOf hinput hinputkind hspecifiers (by simp [nodeKind?])
  have hshape : classifyWithin (m + 1) c =
      .closure ((tupleElements i).map (ofElement (classifyWithin m))) (inner (classifyWithin m) q)
        (effectsOf effects) false (wrapping c.ancestors).1 := by
    rw [classifyWithin, classifyWith, hc]
    show ofFunction _ c = _
    rw [ofFunction, hichild, hqchild, heffects, ← haround]
    rfl
  rw [hshape, unspelled_closure, hparameters, hread, Bool.true_and]
  cases (wrapping c.ancestors).1 <;> rfl

/-! ### Named types -/

/-- The shape of a named type with generic arguments of the shapes `ts`. -/
def namedShape (name : String) (ts : List TypeShape) (description : String) : TypeShape :=
  match name, ts with
  | "Void", [] => void false
  | "Result", ts => result (ts.head?.getD empty) (ts[1]?.getD empty) false
  | "Array", [t] => array t .generic false
  | "Dictionary", [k, v] => dictionary k v .generic false
  | "Set", [t] => set t .generic false
  | "Optional", [t] => t.optional
  | _, _ => simple description false

theorem ofNamed_eq (classify : Cursor → TypeShape) {word : String} {ds : List Cursor}
    (hform : (genericForm? "" none c.elements).getD (c.description, []) = (word, ds)) :
    ofNamed classify c = (namedShape (unqualified word) (ds.map classify) c.description).withOptional
      (isMarkedOptional c) := by
  rw [ofNamed, hform]
  rfl

/-- How the arguments are spelled makes no difference to the shape. -/
theorem namedShape_map_unspelled (name : String) (ts : List TypeShape) (description : String) :
    namedShape name (ts.map unspelled) description =
      (namedShape name ts description).unspelled := by
  -- the names are told apart by the number of arguments, which is at most two
  cases ts with
  | nil =>
    simp only [List.map_nil, namedShape]
    split <;> simp_all
  | cons t ts =>
    cases ts with
    | nil =>
      simp only [List.map_nil, List.map_cons, namedShape]
      split <;> simp_all
    | cons t' ts =>
      cases ts with
      | nil =>
        simp only [List.map_nil, List.map_cons, namedShape]
        split <;> simp_all
      | cons t'' ts =>
        simp only [List.map_cons, namedShape]
        split <;> simp_all

theorem namedShape_eq_simple {name : String} {t : TypeShape} {ts : List TypeShape}
    (hname : isStandard name (t :: ts).length = false) (description : String) :
    namedShape name (t :: ts) description = simple description false := by
  unfold isStandard at hname
  unfold namedShape
  split <;> simp_all

/-- The arguments of a type that is no standard generic type do not matter. -/
theorem namedShape_congr {name : String} {ts ts' : List TypeShape}
    (hname : isStandard name ts.length = false) (hlength : ts.length = ts'.length)
    (description : String) : namedShape name ts description = namedShape name ts' description := by
  cases ts with
  | nil =>
    obtain rfl := List.eq_nil_of_length_eq_zero hlength.symm
    rfl
  | cons t ts =>
    cases ts' with
    | nil => exact nomatch hlength
    | cons t' ts' =>
      rw [namedShape_eq_simple hname, namedShape_eq_simple (hlength ▸ hname)]

/-- Trivia in a named type are skipped. -/
theorem genericForm?_parts (name : String) (arguments : Option (List Cursor)) (es : List Cursor) :
    genericForm? name arguments (es.filter fun e => !e.tree.isTriviaLeaf) =
      genericForm? name arguments es := by
  induction es generalizing name arguments with
  | nil => rfl
  | cons e es ih =>
    cases htree : e.tree with
    | node k children =>
      rw [List.filter_cons_of_pos (by simp [htree]), genericForm?, genericForm?, htree]
      dsimp only
      split
      · exact ih _ _
      · rfl
    | leaf b =>
      cases hb : b.isTrivia with
      | true =>
        rw [List.filter_cons_of_neg (by simp [htree, hb]), genericForm?, htree, ih]
        dsimp only
        rw [if_pos hb]
      | false =>
        rw [List.filter_cons_of_pos (by simp [htree, hb]), genericForm?, genericForm?, htree]
        simp only [hb, Bool.false_eq_true, if_false]
        split
        · rfl
        · exact ih _ _

/-- The words in front of the generic arguments are joined to a name. -/
theorem genericForm?_words {words : List Token} {xs : List Cursor}
    (hxs : xs.map Cursor.tree = words.map .leaf) (hwords : ∀ w ∈ words, w.isTrivia = false)
    (name : String) (ys : List Cursor) :
    genericForm? name none (xs ++ ys) =
      genericForm? (name ++ String.join (words.map Token.text)) none ys := by
  induction words generalizing xs name with
  | nil =>
    obtain rfl := List.map_eq_nil_iff.mp hxs
    rw [List.map_nil, String.join_nil, String.append_empty]
    rfl
  | cons w words ih =>
    obtain ⟨x, xs, rfl, hx, hxs⟩ := List.map_eq_cons_iff.mp hxs
    obtain ⟨hw, hwords⟩ := List.forall_mem_cons.mp hwords
    rw [List.cons_append, genericForm?, hx]
    dsimp only
    rw [hw, if_neg (by decide), if_neg (by decide), ih hxs hwords, List.map_cons,
      String.join_cons, String.append_assoc]

/-- The types in generic arguments. -/
theorem forall₂_filterMap_typeChild? {es : List Cursor} {ts : List Tree}
    (hes : List.Forall₂ IsGenericArgument ts (es.map Cursor.tree))
    (hts : ∀ t ∈ ts, t.nodeKind?.any NodeKind.isType = true)
    (hsealed : ∀ e ∈ es, Sealed e.behind) :
    List.Forall₂ (fun t d => d.tree = t ∧ Apart d ∧ ∃ e ∈ es, d ∈ e.elements) ts
      (es.filterMap Cursor.typeChild?) := by
  induction es generalizing ts with
  | nil =>
    cases hes
    exact .nil
  | cons e es ih =>
    rw [List.map_cons] at hes
    cases hes with
    | @cons t _ ts _ he hes =>
      obtain ⟨ht, hts⟩ := List.forall_mem_cons.mp hts
      obtain ⟨hebehind, hsealed⟩ := List.forall_mem_cons.mp hsealed
      obtain ⟨us, htree, hparts⟩ : ∃ us, e.tree = .node .genericArgument us ∧
          (Tree.node .genericArgument us).parts = [t] := by
        generalize e.tree = tree at he
        obtain ⟨parts⟩ := he
        exact ⟨_, rfl, parts⟩
      have hcparts : e.tree.parts = [] ++ t :: [] := htree ▸ hparts
      obtain ⟨d, hd, hchild, hdt, hdbehind⟩ := exists_inner_part hcparts (by simp) ht
      have hapart : Apart d := .of_mem hd (k := .genericArgument) (by rw [htree]; rfl) (by decide)
        (.congr hdbehind hebehind)
      rw [List.filterMap_cons_some hchild]
      refine .cons ⟨hdt, hapart, e, List.mem_cons_self, hd⟩ ((ih hes hts hsealed).imp ?_)
      rintro t d ⟨hdt, hapart, e, he, hd⟩
      exact ⟨hdt, hapart, e, List.mem_cons_of_mem _ he, hd⟩

theorem nodeKind?_of_isGenericArgument {ts es : List Tree}
    (h : List.Forall₂ IsGenericArgument ts es) : ∀ e ∈ es, e.nodeKind? = some .genericArgument := by
  induction h with
  | nil => exact fun _ he => absurd he List.not_mem_nil
  | cons he _ ih =>
    refine List.forall_mem_cons.mpr ⟨?_, ih⟩
    cases he
    rfl

/-- The types in a list of generic arguments, as they are found in it. -/
theorem IsArgumentClause.forall₂_types {ts : List Tree} (h : IsArgumentClause ts u)
    (hts : ∀ t ∈ ts, t.nodeKind?.any NodeKind.isType = true) (hc : c.tree = u) :
    List.Forall₂ (fun t d => d.tree = t ∧ Apart d ∧ d.tree.height < c.tree.height) ts
      ((c.children.filter fun a => a.isKind .genericArgument).filterMap Cursor.typeChild?) := by
  obtain ⟨parts, listed, arguments⟩ := h
  obtain ⟨hfound, hsealed⟩ := listed_elements (hc ▸ parts) listed (by decide)
    (nodeKind?_of_isGenericArgument arguments)
  rw [c.filter_isKind_children]
  refine (forall₂_filterMap_typeChild? (hfound ▸ arguments) hts hsealed).imp ?_
  rintro t d ⟨hdt, hapart, e, he, hd⟩
  have helt := height_lt_of_mem_children (Cursor.tree_mem_children (List.mem_filter.mp he).1)
  have hdlt := height_lt_of_mem_children (Cursor.tree_mem_children hd)
  exact ⟨hdt, hapart, by omega⟩

/-- The name and the arguments of a generic type, as they are found among the children. -/
theorem IsGeneric.exists_form {name : String} {ts : List Tree} (h : IsGeneric name ts u)
    (hts : ∀ t ∈ ts, t.nodeKind?.any NodeKind.isType = true) (hc : c.tree = u) :
    ∃ word ds, genericForm? "" none c.elements = some (word, ds) ∧
      word ∈ [name, "Swift." ++ name] ∧
      List.Forall₂ (fun t d => d.tree = t ∧ Apart d ∧ d.tree.height < c.tree.height) ts ds := by
  obtain ⟨spells, hparts, harguments⟩ := h
  rename_i words us clause
  have hcparts : c.tree.parts = words.map .leaf ++ clause :: [] := hc ▸ hparts
  obtain ⟨xs, y, ys, hsplit, hxs, hy, hys⟩ := Cursor.exists_parts_eq hcparts
  obtain rfl := List.map_eq_nil_iff.mp hys
  have hwords : ∀ w ∈ words, w.isTrivia = false := by
    intro w hw
    have hmem : Tree.leaf w ∈ c.tree.parts := by
      rw [hcparts]
      exact List.mem_append_left _ (List.mem_map_of_mem hw)
    simpa using (List.mem_filter.mp hmem).2
  have hymem : y ∈ c.elements := Cursor.mem_elements_of_mem_parts
    (hsplit ▸ List.mem_append_right xs List.mem_cons_self)
  obtain ⟨vs, hvs⟩ : ∃ vs, clause = .node .genericArgumentClause vs := by
    cases harguments
    exact ⟨_, rfl⟩
  refine ⟨String.join (words.map Token.text), _, ?_, spells,
    (harguments.forall₂_types hts hy).imp ?_⟩
  · rw [← genericForm?_parts]
    show genericForm? "" none c.parts = _
    rw [hsplit, genericForm?_words hxs hwords, String.empty_append, genericForm?, hy, hvs]
    dsimp only
    rw [if_pos (by decide), genericForm?, Option.getD_some]
  · rintro t d ⟨hdt, hapart, hheight⟩
    have hylt := height_lt_of_mem_children (Cursor.tree_mem_children hymem)
    exact ⟨hdt, hapart, by omega⟩

/-- The name of the standard module in front of a name makes no difference. -/
theorem unqualified_eq {name word : String}
    (hname : "Swift.".toList.isPrefixOf name.toList = false) (h : word ∈ [name, "Swift." ++ name]) :
    unqualified word = name := by
  rcases List.mem_pair.mp h with rfl | rfl
  · rw [unqualified, hname]
    rfl
  · have hprefix : "Swift.".toList.isPrefixOf ("Swift." ++ name).toList = true := by
      rw [List.isPrefixOf_iff_prefix, String.toList_append]
      exact List.prefix_append _ _
    have hdrop : ("Swift." ++ name).toList.drop 6 = name.toList := by
      rw [String.toList_append]
      rfl
    rw [unqualified, hprefix, if_pos rfl, hdrop, String.ofList_toList]

theorem Reads.isType_of_forall₂ {ts : List Tree} {rs : List Reading}
    (h : List.Forall₂ Reads ts rs) : ∀ t ∈ ts, t.nodeKind?.any NodeKind.isType = true :=
  ((List.forall₂_and_left _ _).mp (h.imp fun _ _ hr => ⟨hr.isType, hr⟩)).1

/-- Types that stand apart are read as their shapes. -/
theorem Reads.map_unspelled {ts : List Tree} {rs : List Reading} {ds : List Cursor}
    (h : List.Forall₂ Reads ts rs)
    (hds : List.Forall₂ (fun t d => d.tree = t ∧ Apart d ∧ d.tree.height ≤ m) ts ds) :
    (ds.map (classifyWithin m)).map unspelled = rs.map Reading.shape := by
  induction h generalizing ds with
  | nil =>
    cases hds
    rfl
  | cons hr _ ih =>
    cases hds with
    | cons hd hds =>
      obtain ⟨rfl, hapart, hheight⟩ := hd
      rw [List.map_cons, List.map_cons, ih hds, List.map_cons, hr.of_apart rfl hheight hapart]

/-- A standard generic type, with or without the name of the module in front. -/
theorem Reads.generic {name : String} {ts : List Tree} {rs : List Reading} {s : TypeShape}
    (hu : IsGeneric name ts u) (hname : "Swift.".toList.isPrefixOf name.toList = false)
    (h : List.Forall₂ Reads ts rs)
    (hs : ∀ description, namedShape name (rs.map Reading.shape) description = s) :
    Reads u ⟨s, false, false⟩ := by
  obtain ⟨us, hus⟩ : ∃ us, u = .node .simpleType us := by
    cases hu
    exact ⟨_, rfl⟩
  refine of_mark (k := .simpleType) (by rw [hus]; rfl) rfl (by decide) fun n c hc hn => ?_
  obtain ⟨m, rfl, -⟩ := exists_levels (hc.trans hus) (hc ▸ hn)
  obtain ⟨word, ds, hform, hword, hds⟩ := hu.exists_form (isType_of_forall₂ h) hc
  have hshapes : (ds.map (classifyWithin m)).map unspelled = rs.map Reading.shape := by
    refine map_unspelled h (hds.imp ?_)
    rintro t d ⟨hdt, hapart, hheight⟩
    rw [hc] at hheight
    exact ⟨hdt, hapart, by omega⟩
  have hdata : (genericForm? "" none c.elements).getD (c.description, []) = (word, ds) := by
    rw [hform]
    rfl
  have hshape : classifyWithin (m + 1) c = ofNamed (classifyWithin m) c := by
    rw [classifyWithin, classifyWith, hc, hus]
    rfl
  rw [hshape, ofNamed_eq _ hdata, unspelled_withOptional, ← namedShape_map_unspelled, hshapes,
    unqualified_eq hname hword, hs]

variable {r r' : Reading} {t' : Tree}

/-- `[T]`, `Array<T>` or `Swift.Array<T>`. -/
theorem Reads.array (hu : IsArray t u) (h : Reads t r) :
    Reads u ⟨.array r.shape .generic false, false, false⟩ := by
  cases hu with
  | bracket parts closes => exact h.bracketArray parts closes
  | generic hu => exact .generic hu (by decide) (.cons h .nil) fun _ => rfl

/-- `[K: V]`, `Dictionary<K, V>` or `Swift.Dictionary<K, V>`. -/
theorem Reads.dictionary (hu : IsDictionary t t' u) (h : Reads t r) (h' : Reads t' r') :
    Reads u ⟨.dictionary r.shape r'.shape .generic false, false, false⟩ := by
  cases hu with
  | bracket parts colon closes => exact h.bracketDictionary h' parts colon closes
  | generic hu => exact .generic hu (by decide) (.cons h (.cons h' .nil)) fun _ => rfl

/-- `T?` or `Optional<T>`. -/
theorem Reads.optional (hu : IsOptional t u) (h : Reads t r) :
    Reads u ⟨r.shape.optional, false, false⟩ := by
  cases hu with
  | marked operand parts => exact h.marked operand (by decide) parts
  | parenthesized tuple parts =>
    have hoperand : ∀ v, IsTuple [[]] [t] v → IsOperand v := by
      rintro v ⟨⟩
      exact ⟨by simp [nodeKind?], by simp [nodeKind?]⟩
    exact (Reads.tuple tuple (.cons h .nil)).marked (hoperand _ tuple) (by decide) parts
  | generic hu => exact .generic hu (by decide) (.cons h .nil) fun _ => rfl

/-- `Result<S, F>`. -/
theorem Reads.result {ts : List Tree} {rs : List Reading} (hu : IsGeneric "Result" ts u)
    (h : List.Forall₂ Reads ts rs) :
    Reads u ⟨.result ((rs.map Reading.shape).head?.getD .empty)
      ((rs.map Reading.shape)[1]?.getD .empty) false, false, false⟩ :=
  .generic hu (by decide) h fun _ => rfl

/-! ### Other types -/

theorem isSome_typeChild? (c : Cursor) :
    c.typeChild?.isSome = c.tree.children.any fun t => t.nodeKind?.any NodeKind.isType := by
  rw [← Cursor.map_tree_elements, List.any_map, Bool.eq_iff_iff, Cursor.typeChild?,
    List.find?_isSome, List.any_eq_true]
  rfl

/-- How many generic arguments there are depends on the tree only. -/
theorem length_genericArguments (h : c.tree = d.tree) :
    ((c.children.filter fun a => a.isKind .genericArgument).filterMap Cursor.typeChild?).length =
      ((d.children.filter fun a => a.isKind .genericArgument).filterMap
        Cursor.typeChild?).length := by
  have hcount : ∀ c : Cursor,
      ((c.children.filter fun a => a.isKind .genericArgument).filterMap Cursor.typeChild?).length =
        c.tree.children.countP fun t => (t.children.any fun t => t.nodeKind?.any NodeKind.isType) &&
          t.nodeKind? == some .genericArgument := by
    intro c
    rw [c.filter_isKind_children, List.length_filterMap_eq_countP, List.countP_filter,
      ← Cursor.map_tree_elements, List.countP_map]
    refine List.countP_congr fun e _ => ?_
    simp [isSome_typeChild?]
  rw [hcount, hcount, h]

/-- The name of a type and how many arguments it has depend on the tree only. -/
theorem genericForm?_congr {es es' : List Cursor} (h : es.map Cursor.tree = es'.map Cursor.tree)
    {as as' : Option (List Cursor)} (has : as.map List.length = as'.map List.length)
    (name : String) :
    (genericForm? name as es).map (fun x => (x.1, x.2.length)) =
      (genericForm? name as' es').map fun x => (x.1, x.2.length) := by
  induction es generalizing es' name as as' with
  | nil =>
    obtain rfl := List.map_eq_nil_iff.mp h.symm
    have hlength : (as.getD []).length = (as'.getD []).length := by
      rw [← Option.getD_map List.length, has, Option.getD_map]
    rw [genericForm?, genericForm?, Option.map_some, Option.map_some, hlength]
  | cons e es ih =>
    obtain ⟨e', es', rfl, he, hes⟩ := List.map_eq_cons_iff.mp h.symm
    have hsome : as.isSome = as'.isSome := by
      rw [← Option.isSome_map (f := List.length), has, Option.isSome_map]
    have hnone : as.isNone = as'.isNone := by rw [← Option.not_isSome, hsome, Option.not_isSome]
    have htypes : (some ((e.children.filter fun a => a.isKind .genericArgument).filterMap
        Cursor.typeChild?)).map List.length = (some ((e'.children.filter fun a =>
          a.isKind .genericArgument).filterMap Cursor.typeChild?)).map List.length :=
      congrArg some (length_genericArguments he.symm)
    rw [genericForm?, genericForm?, he, hsome, hnone]
    cases e.tree with
    | leaf t =>
      dsimp only
      split
      · exact ih hes.symm has name
      · split
        · rfl
        · exact ih hes.symm rfl _
    | node k children =>
      dsimp only
      split
      · exact ih hes.symm htypes name
      · rfl

/-- The name of a type as it is, with its arguments. -/
theorem exists_named_eq (hc : c.tree = d.tree) {word : String} {ds : List Cursor}
    (hd : (genericForm? "" none d.elements).getD (d.description, []) = (word, ds)) :
    ∃ cs, (genericForm? "" none c.elements).getD (c.description, []) = (word, cs) ∧
      cs.length = ds.length := by
  have helements : c.elements.map Cursor.tree = d.elements.map Cursor.tree := by
    rw [Cursor.map_tree_elements, Cursor.map_tree_elements, hc]
  have hnone : (none : Option (List Cursor)).map List.length =
      (none : Option (List Cursor)).map List.length := rfl
  have hcongr := genericForm?_congr helements hnone ""
  cases hform : genericForm? "" none d.elements with
  | none =>
    rw [hform, Option.map_none, Option.map_eq_none_iff] at hcongr
    rw [hform] at hd
    obtain ⟨rfl, rfl⟩ := Prod.mk.inj hd
    refine ⟨[], ?_, rfl⟩
    rw [hcongr, Cursor.description, Cursor.text, hc]
    rfl
  | some form =>
    rw [hform, Option.map_some, Option.map_eq_some_iff] at hcongr
    rw [hform] at hd
    obtain rfl : form = (word, ds) := hd
    obtain ⟨⟨word', cs⟩, hform', hsame⟩ := hcongr
    obtain ⟨rfl, hlength⟩ := Prod.mk.inj hsame
    exact ⟨cs, by rw [hform']; rfl, hlength⟩

/-- A type that is not respelled inside. -/
theorem Reads.fixed (h : IsFixed u) : ∃ r, Reads u r := by
  cases h with
  | @other k us kind =>
    have hkinds : ∀ k ∈ [NodeKind.metatypeType, .compositionType, .someOrAnyType],
        k.isType = true ∧ k ≠ .attributedType := by decide
    refine ⟨⟨.empty, false, false⟩, of_wrapping rfl (hkinds k kind).1 (hkinds k kind).2 ?_⟩
    intro n c hc hn _
    obtain ⟨m, rfl, -⟩ := exists_levels hc (hc ▸ hn)
    have hcases : k = .metatypeType ∨ k = .compositionType ∨ k = .someOrAnyType := by
      simpa using kind
    have hshape : classifyWithin (m + 1) c = .empty := by
      rw [classifyWithin, classifyWith, hc]
      rcases hcases with rfl | rfl | rfl <;> rfl
    rw [hshape, unspelled_empty]
    rfl
  | @named us notStandard =>
    obtain ⟨⟨word, ds⟩, hroot⟩ : ∃ p, (genericForm? "" none
        (Cursor.ofTree (.node .simpleType us)).elements).getD
          ((Cursor.ofTree (.node .simpleType us)).description, []) = p := ⟨_, rfl⟩
    have hstandard : isStandard (unqualified word) ds.length = false := by
      cases hform : genericForm? "" none (Cursor.ofTree (.node .simpleType us)).elements with
      | none =>
        rw [hform] at hroot
        obtain ⟨-, rfl⟩ := Prod.mk.inj hroot
        unfold isStandard
        split <;> rfl
      | some form =>
        rw [hform] at hroot
        obtain rfl : form = (word, ds) := hroot
        exact notStandard word ds hform
    refine ⟨⟨namedShape (unqualified word) (ds.map fun _ => .empty)
      (Cursor.ofTree (.node .simpleType us)).description, false, false⟩,
      of_mark rfl rfl (by decide) fun n c hc hn => ?_⟩
    obtain ⟨m, rfl, -⟩ := exists_levels hc (hc ▸ hn)
    have htree : c.tree = (Cursor.ofTree (.node .simpleType us)).tree := hc
    obtain ⟨cs, hdata, hlength⟩ := exists_named_eq htree hroot
    have hshape : classifyWithin (m + 1) c = ofNamed (classifyWithin m) c := by
      rw [classifyWithin, classifyWith, hc]
      rfl
    have hdescription : c.description = (Cursor.ofTree (.node .simpleType us)).description := by
      rw [Cursor.description, Cursor.text, hc]
      rfl
    have hcongr : namedShape (unqualified word) ((cs.map (classifyWithin m)).map unspelled)
        c.description = namedShape (unqualified word) (ds.map fun _ => .empty) c.description :=
      namedShape_congr (by simpa [hlength] using hstandard) (by simp [hlength]) _
    rw [hshape, ofNamed_eq _ hdata, unspelled_withOptional, ← namedShape_map_unspelled, hcongr,
      hdescription]

/-! ## Respelled types -/

mutual

/-- Types that differ by respelling are read in the same way. -/
theorem Respelled.exists_reads {u u' : Tree} (h : Respelled u u') :
    ∃ r, Reads u r ∧ Reads u' r := by
  match h with
  | .fixed h =>
    obtain ⟨r, hr⟩ := Reads.fixed h
    exact ⟨r, hr, hr⟩
  | .array hu hu' element =>
    obtain ⟨r, hr, hr'⟩ := element.exists_reads
    exact ⟨_, .array hu hr, .array hu' hr'⟩
  | .dictionary hu hu' key value =>
    obtain ⟨r, hk, hk'⟩ := key.exists_reads
    obtain ⟨s, hv, hv'⟩ := value.exists_reads
    exact ⟨_, .dictionary hu hk hv, .dictionary hu' hk' hv'⟩
  | .set hu hu' element =>
    obtain ⟨r, hr, hr'⟩ := element.exists_reads
    exact ⟨⟨.set r.shape .generic false, false, false⟩,
      .generic hu (by decide) (.cons hr .nil) fun _ => rfl,
      .generic hu' (by decide) (.cons hr' .nil) fun _ => rfl⟩
  | .result hu hu' arguments =>
    obtain ⟨rs, hrs, hrs'⟩ := arguments.exists_reads
    exact ⟨_, .result hu hrs, .result hu' hrs'⟩
  | .optional hu hu' inner =>
    obtain ⟨r, hr, hr'⟩ := inner.exists_reads
    exact ⟨_, .optional hu hr, .optional hu' hr'⟩
  | .unwrapped hu hu' inner =>
    obtain ⟨r, hr, hr'⟩ := inner.exists_reads
    obtain ⟨operand, parts⟩ := hu
    obtain ⟨operand', parts'⟩ := hu'
    exact ⟨_, hr.marked operand (by decide) parts, hr'.marked operand' (by decide) parts'⟩
  | .specified hu hu' inner =>
    obtain ⟨r, hr, hr'⟩ := inner.exists_reads
    obtain ⟨parts⟩ := hu
    obtain ⟨parts'⟩ := hu'
    exact ⟨_, hr.specified parts, hr'.specified parts'⟩
  | .tuple hu hu' elements =>
    obtain ⟨rs, hrs, hrs'⟩ := elements.exists_reads
    exact ⟨_, .tuple hu hrs, .tuple hu' hrs'⟩
  | .function hu hu' input output =>
    obtain ⟨rs, hrs, hrs'⟩ := input.exists_reads
    obtain ⟨r, hout, hout'⟩ := output.exists_reads
    exact ⟨_, .function hu hrs hout, .function hu' hrs' hout'⟩

/-- So are sequences of such types. -/
theorem RespelledAll.exists_reads {ts ts' : List Tree} (h : RespelledAll ts ts') :
    ∃ rs, List.Forall₂ Reads ts rs ∧ List.Forall₂ Reads ts' rs := by
  match h with
  | .nil => exact ⟨[], .nil, .nil⟩
  | .cons first rest =>
    obtain ⟨r, hr, hr'⟩ := first.exists_reads
    obtain ⟨rs, hrs, hrs'⟩ := rest.exists_reads
    exact ⟨r :: rs, .cons hr hrs, .cons hr' hrs'⟩

end

/-- Wherever they stand apart, types that differ by respelling have the same shape, up to how
    collections are spelled and the texts of types. -/
theorem Respelled.unspelled_classify {u u' : Tree} (h : Respelled u u') (hc : c.tree = u)
    (hd : d.tree = u') (hcapart : Apart c) (hdapart : Apart d) :
    (classify c).unspelled = (classify d).unspelled := by
  obtain ⟨r, hr, hr'⟩ := h.exists_reads
  rw [classify, classify, hr.of_apart hc (hc ▸ Nat.le_refl _) hcapart,
    hr'.of_apart hd (hd ▸ Nat.le_refl _) hdapart]

end TypeShape

end SwiftOutline
