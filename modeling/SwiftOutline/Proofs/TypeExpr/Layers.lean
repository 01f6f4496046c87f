/-
  SwiftOutline.Proofs.TypeExpr.Layers

  What stands around a type. The mark of an optional, attributes and the
  parentheses of a tuple are made around one type at most, so there is one way
  down through them. The rule for types adds at most one element, of which its
  other parts make a bigger type.
-/
import SwiftOutline.Proofs.Parser.Kinds
import SwiftOutline.Proofs.Parser.Wlp
import SwiftOutline.Proofs.Tree.Everywhere

namespace SwiftOutline

/-! ## Layers -/

namespace NodeKind

/-- Whether nodes of a kind stand around a type without being more than that. -/
def isLayer : NodeKind → Bool
  | .optionalType | .implicitlyUnwrappedOptionalType | .attributedType | .tupleTypeElement
  | .tupleType => true
  | _ => false

/-- Whether a kind is no layer. -/
def isCore (k : NodeKind) : Bool := !k.isLayer

theorem isCore_of_isOrdinary {k : NodeKind} (h : k.isOrdinary = true) : k.isCore = true := by
  cases k <;> first | rfl | exact absurd h (by decide)

instance : HasOrdinary isCore := ⟨isCore_of_isOrdinary⟩

/-- Whether nodes of a kind are types, or what a tuple type has in their place. -/
def isContent (k : NodeKind) : Bool := k.isType || k == .tupleTypeElement

end NodeKind

namespace Tree

/-- Whether a tree is a type. -/
def isType (t : Tree) : Bool := t.nodeKind?.any NodeKind.isType

/-- Whether a tree is a type, or what a tuple type has in its place. -/
def isContent (t : Tree) : Bool := t.nodeKind?.any NodeKind.isContent

/-- The types among some trees, and what a tuple type has in their place. -/
def contents (ts : List Tree) : List Tree := ts.filter isContent

/-- There is at most one type among the children of a layer. The children of a tuple type are
    elements, each with at most one type. -/
def Layered : NodeKind → List Tree → Prop
  | .optionalType, ts | .implicitlyUnwrappedOptionalType, ts | .attributedType, ts
  | .tupleTypeElement, ts => contents ts = [] ∨ ∃ t, contents ts = [t] ∧ t.isType = true
  | .tupleType, ts => ∀ t ∈ ts, t.isType = false
  | _, _ => True

theorem layered_of_isCore {k : NodeKind} (ts : List Tree) (h : k.isCore = true) :
    Layered k ts := by
  cases k <;> trivial

theorem contents_append (ts us : List Tree) : contents (ts ++ us) = contents ts ++ contents us :=
  List.filter_append ..

theorem isContent_of_isType {t : Tree} (h : t.isType = true) : t.isContent = true := by
  cases t with
  | leaf t => exact h
  | node k children =>
    have hk : k.isType = true := h
    show (k.isType || _) = true
    rw [hk, Bool.true_or]

theorem contents_forestWithoutTrivia (ts : List Tree) :
    contents (forestWithoutTrivia ts) = (contents ts).map withoutTrivia := by
  have hcontent : ∀ t : Tree, t.withoutTrivia.isContent = t.isContent :=
    fun t => congrArg (Option.any NodeKind.isContent) (nodeKind?_withoutTrivia t)
  induction ts with
  | nil => rfl
  | cons t ts ih =>
    have htrivia : t.isTriviaLeaf = true → t.isContent = false := by
      cases t <;> simp [isTriviaLeaf, isContent, nodeKind?]
    rw [forestWithoutTrivia, contents, contents, List.filter_cons]
    split
    · next h => rwa [htrivia h, if_neg Bool.false_ne_true]
    · rw [List.filter_cons, hcontent]
      split
      · rw [List.map_cons]
        exact congrArg _ ih
      · exact ih

/-- Layers are told without their trivia. -/
theorem layered_of_withoutTrivia (k : NodeKind) (ts : List Tree)
    (h : Layered k (forestWithoutTrivia ts)) : Layered k ts := by
  have hcontents : contents (forestWithoutTrivia ts) = [] ∨
      (∃ t, contents (forestWithoutTrivia ts) = [t] ∧ t.isType = true) →
      contents ts = [] ∨ ∃ t, contents ts = [t] ∧ t.isType = true := by
    rw [contents_forestWithoutTrivia]
    rintro (h | ⟨u, hu, htype⟩)
    · exact .inl (List.map_eq_nil_iff.mp h)
    · obtain ⟨t, ht, rfl⟩ := List.map_eq_singleton_iff.mp hu
      refine .inr ⟨t, ht, ?_⟩
      rwa [isType, nodeKind?_withoutTrivia] at htype
  cases k
  case optionalType => exact hcontents h
  case implicitlyUnwrappedOptionalType => exact hcontents h
  case attributedType => exact hcontents h
  case tupleTypeElement => exact hcontents h
  case tupleType =>
    intro t ht
    cases t with
    | leaf t => rfl
    | node k children =>
      exact h (node k children).withoutTrivia (mem_forestWithoutTrivia.mpr ⟨_, ht, rfl, rfl⟩)
  all_goals trivial

end Tree

/-! ## What the rule for types adds -/

namespace State

open SwiftOutline.Tree (Layered contents)

variable {s t u : State} {rest : List Tree}

/-- The types that a node made of what has been built would have. -/
def contents (s : State) : List Tree := Tree.contents s.built.reverse

/-- Types are layered as they should be, and the element built last, before which is `rest`, is a
    type. -/
structure Topped (rest : List Tree) (s : State) : Prop where
  layered : s.Everywhere Layered
  top : ∃ x, x.isType = true ∧ s.built = x :: rest

/-- What the rule for types does to well layered types: it adds a type and tells so, or it adds
    nothing. -/
def FindsType (s : State) (r : Bool × State) : Prop :=
  s.Everywhere Layered → (r.1 = true ∧ r.2.Topped s.built) ∨
    (r.1 = false ∧ r.2.Everywhere Layered ∧ r.2.built = s.built)

/-- What all rules do to well layered types: they keep them. -/
def keepingLayers : Parser.Kept :=
  keepingEverywhere Layered (NodeKind.Among NodeKind.isCore) fun _ => Tree.layered_of_isCore

theorem FindsType.found (h : s.Everywhere Layered → t.Topped s.built) : s.FindsType (true, t) :=
  fun hs => .inl ⟨rfl, h hs⟩

theorem FindsType.layered {r : Bool × State} (h : s.FindsType r) (hs : s.Everywhere Layered) :
    r.2.Everywhere Layered :=
  (h hs).elim (fun h => h.2.layered) fun h => h.2.1

theorem Adds.contents_eq (h : s.Adds (fun x => x.isContent = false) t) :
    t.contents = s.contents := by
  obtain ⟨new, ht, hnew⟩ := h
  have hnone : Tree.contents new.reverse = [] :=
    List.filter_eq_nil_iff.mpr fun x hx => by simp [hnew x (List.mem_reverse.mp hx)]
  rw [contents, contents, ht, List.reverse_append, Tree.contents_append, hnone, List.append_nil]

theorem contents_of_built_cons {x : Tree} (hx : x.isType = true) (h : t.built = x :: rest) :
    t.contents = Tree.contents rest.reverse ++ [x] := by
  have hone : Tree.contents [x] = [x] := by
    rw [Tree.contents, List.filter_cons_of_pos (Tree.isContent_of_isType hx), List.filter_nil]
  rw [contents, h, List.reverse_cons, Tree.contents_append, hone]

/-- A type made of the type built last and more. -/
theorem Topped.finish {k : NodeKind} (hs : s.Topped rest) (ht : t.Everywhere Layered)
    (hk : k.isType = true) (hlayered : Layered k t.built.reverse) :
    (t.finish s true (some k)).Topped rest := by
  obtain ⟨x, -, hbuilt⟩ := hs.top
  refine ⟨hs.layered.finish ht fun k' hk' => Option.some.inj hk' ▸ hlayered, ?_⟩
  exact ⟨.node k t.built.reverse, hk, by simp [State.finish, hbuilt]⟩

end State

namespace Grammar

open SwiftOutline.Parser SwiftOutline.State

open NodeKind (Among isCore)

variable {call : Rule → State → Bool × State} {s t u : State} {rest : List Tree}

/-! ### Programs that add no type -/

/-- A program that adds nothing but tokens and nodes that are neither types nor elements. -/
abbrev Bare {α : Type} (call : Rule → State → Bool × State) (p : Parser α) : Prop :=
  Parser.Adds (fun x => x.isContent = false) call p

theorem bare_bump : Bare call bump := .bump fun _ => rfl

theorem bare_labels : Bare call labels := by
  refine .bind .view fun v => .ite (.ite (.bind bare_bump fun _ => bare_bump) (.ite ?_ .pure)) .pure
  exact .bind bare_bump fun _ => .bind bare_bump fun _ => bare_bump

theorem bare_attributes : Bare call attributes :=
  .bind .sees fun _ => .ite (.node fun _ => rfl) .pure

theorem bare_typeSpecifier : Bare call typeSpecifier :=
  .bind .view fun _ => .ite (.bind bare_bump fun _ => .pure) .pure

/-- A type that is added to what has none is the only one there. -/
theorem layered_of_findsType {r : Bool × State}
    (ht : (s.start false).Adds (fun x => x.isContent = false) t) (hr : t.FindsType r)
    (hlayered : t.Everywhere Tree.Layered) :
    r.2.contents = [] ∨ ∃ x, r.2.contents = [x] ∧ x.isType = true := by
  have hnone : t.contents = [] := ht.contents_eq
  rcases hr hlayered with ⟨-, -, x, hx, hbuilt⟩ | ⟨-, -, hbuilt⟩
  · right
    refine ⟨x, ?_, hx⟩
    rw [contents_of_built_cons hx hbuilt]
    exact congrArg (· ++ [x]) hnone
  · left
    rw [State.contents, hbuilt]
    exact hnone

section Rules

variable (hcall : ∀ r s, keepingLayers.rel s (call r s).2)

include hcall

/-- Programs that make no layers keep them. -/
theorem layers_of_makes {α : Type} {p : Parser α} (h : Makes (Among isCore) p fun _ => True) :
    keepingLayers.By call p :=
  Makes.by (K := keepingLayers) hcall h

/-- A type of a kind that its program names is added. -/
theorem topped_node? {p : Parser (Option NodeKind)}
    (hp : Makes (Among isCore) p fun k? => ∃ k, k? = some k ∧ k.isType = true ∧ k.isCore = true)
    (hs : s.Everywhere Tree.Layered) : ((node? p).run call s).2.Topped s.built := by
  obtain ⟨hkeeps, k, hk, htype, hcore⟩ :=
    Makes.run (K := keepingLayers) hcall hp (s.start false)
  rw [run_node?, hk]
  refine ⟨hs.finish (hkeeps (hs.start false)) fun k' hk' => ?_, .node k _, htype, rfl⟩
  exact Option.some.inj hk' ▸ Tree.layered_of_isCore _ hcore

variable (htype : ∀ s : State, s.FindsType (call .type s))

/-! ### Primary types -/

section

include htype

theorem layers_tupleTypeElement : keepingLayers.By call tupleTypeElement := by
  intro s hs
  have hlabels : keepingLayers.By call labels := layers_of_makes hcall (by simp)
  have hall : keepingLayers.By call (do
      labels
      let parsed ← follow .type
      let _ ← eat .ellipsis
      pure parsed) := layers_of_makes hcall (by simp)
  rw [tupleTypeElement, run_node]
  refine hs.finish (hall _ (hs.start false)) fun k hk => ?_
  obtain rfl := Option.some.inj hk
  have hellipsis : Bare call (eat .ellipsis) := .eat fun _ => rfl
  have hcontents := layered_of_findsType (bare_labels (s.start false)) (htype _)
    (hlabels _ (hs.start false))
  rw [← (hellipsis _).contents_eq] at hcontents
  simp only [run_bind, run_follow, run_pure]
  exact hcontents

theorem layers_tupleType : keepingLayers.By call tupleType := by
  intro s hs
  have plain {α : Type} {p : Parser α} (h : Makes (Among isCore) p fun _ => True) :
      keepingLayers.By call p := layers_of_makes hcall h
  have helement := layers_tupleTypeElement hcall htype
  have hall : keepingLayers.By call (do
      bump
      separatedUntil .rParen tupleTypeElement
      require .rParen .openTupleType) := by
    refine .bind (plain (by simp)) fun _ => .bind (.repeating ?_) fun _ => plain (by simp)
    refine .bind (plain (by simp)) fun v => .ite .pure (.bind helement fun b => .ite ?_ .pure)
    exact plain (by simp)
  -- there are only elements and tokens among the children
  have hadds : Parser.Adds (fun x => x.isType = false) call (do
      bump
      separatedUntil .rParen tupleTypeElement
      require .rParen .openTupleType) := by
    refine .bind (.bump fun _ => rfl) fun _ => .bind (.repeating ?_) fun _ => .require fun _ => rfl
    refine .bind .view fun v => .ite .pure (.bind (.node fun _ => rfl) fun b => ?_)
    exact .ite (.eat fun _ => rfl) .pure
  rw [tupleType, run_node]
  refine hs.finish (hall _ (hs.start false)) fun k hk => ?_
  obtain rfl := Option.some.inj hk
  exact fun x hx => (hadds (s.start false)).forall_built x (List.mem_reverse.mp hx)

theorem findsType_primaryType (s : State) : s.FindsType (primaryType.run call s) := by
  have plain {α : Type} {p : Parser α} (h : Makes (Among isCore) p fun _ => True) :
      keepingLayers.By call p := layers_of_makes hcall h
  have simple (hs : s.Everywhere Tree.Layered) : (simpleType.run call s).2.Topped s.built := by
    refine ⟨plain (by simp +decide [simpleType, joinedGenericArguments]) s hs, ?_⟩
    rw [simpleType, run_node]
    exact ⟨_, rfl, rfl⟩
  have collection (hs : s.Everywhere Tree.Layered) :
      (collectionType.run call s).2.Topped s.built := by
    rw [collectionType, run_bind, run_pure]
    exact topped_node? hcall (by simp; grind [NodeKind.isType, NodeKind.isCore, NodeKind.isLayer]) hs
  have tuple (hs : s.Everywhere Tree.Layered) : (tupleType.run call s).2.Topped s.built := by
    refine ⟨layers_tupleType hcall htype s hs, ?_⟩
    rw [tupleType, run_node]
    exact ⟨_, rfl, rfl⟩
  simp only [primaryType, run_kind_bind]
  split
  all_goals simp only [run_bind, run_pure]
  iterate 3 exact .found simple
  · exact .found collection
  · exact .found tuple
  · exact fun hs => .inr ⟨rfl, hs, rfl⟩

end

/-! ### Types with something behind them -/

omit hcall

/-- What stands behind a type makes a bigger type of it. -/
theorem topped_wrap {k : NodeKind} {p : Parser Unit} (hs : s.Topped rest)
    (hp : keepingLayers.By call p) (hk : k.isType = true) (hcore : k.isCore = true) :
    ((wrap k p).run call s).2.Topped rest := by
  rw [run_wrap]
  exact hs.finish (hp _ (hs.layered.start true)) hk (Tree.layered_of_isCore _ hcore)

/-- The mark of an optional has the type before it for its only one. -/
theorem topped_mark {k : NodeKind} (hs : s.Topped rest) (hk : k.isType = true)
    (hlayered : ∀ ts, (Tree.contents ts = [] ∨ ∃ x, Tree.contents ts = [x] ∧ x.isType = true) →
      Tree.Layered k ts) : ((wrap k bump).run call s).2.Topped rest := by
  obtain ⟨x, hx, hbuilt⟩ := hs.top
  rw [run_wrap]
  refine hs.finish (hs.layered.start true).consume hk (hlayered _ (.inr ⟨x, ?_, hx⟩))
  show (s.start true).consume.contents = [x]
  rw [(adds_consume (fun _ => rfl) (s.start true)).contents_eq]
  exact contents_of_built_cons hx (show (s.start true).built = [x] by simp [State.start, hbuilt])

include hcall

theorem topped_typeSuffix (hs : s.Topped rest) : (typeSuffix.run call s).2.Topped rest := by
  simp only [typeSuffix, run_view_bind]
  split
  · simp only [run_ite, run_bind, run_pure]
    split
    · exact hs
    · exact topped_mark hs rfl fun _ h => h
  · simp only [run_ite, run_bind, run_pure]
    split
    · exact hs
    · exact topped_mark hs rfl fun _ h => h
  · simp only [run_ite, run_bind, run_pure]
    split
    · exact topped_wrap hs (layers_of_makes hcall (by simp)) rfl rfl
    · exact hs
  · exact hs

theorem topped_typeTail {tuple : Bool} (hs : s.Topped rest) :
    ((typeTail tuple).run call s).2.Topped rest := by
  have suffixes {t : State} (ht : t.Topped rest) :
      ((repeating typeSuffix).run call t).2.Topped rest := by
    rw [run_repeating]
    exact of_roundsOf (I := fun t => t.Topped rest) (J := fun t => t.Topped rest)
      (fun t ht => topped_typeSuffix hcall ht) (fun _ => id) t.left ht
  simp only [typeTail, run_bind, run_ite]
  split
  · exact suffixes (topped_wrap hs (layers_of_makes hcall (by simp)) rfl rfl)
  · exact suffixes hs

include htype

theorem findsType_postfixType (s : State) : s.FindsType (postfixType.run call s) := by
  intro hs
  rw [postfixType, run_sees_bind, run_bind, run_ite]
  rcases findsType_primaryType hcall htype s hs with ⟨hfound, htop⟩ | ⟨hmissing, hlayered, hbuilt⟩
  · rw [if_pos hfound, run_bind, run_pure]
    exact .inl ⟨rfl, topped_typeTail hcall htop⟩
  · rw [if_neg (by simp [hmissing]), run_pure]
    exact .inr ⟨rfl, hlayered, hbuilt⟩

theorem layers_joinedType : keepingLayers.By call joinedType := by
  have plain {α : Type} {p : Parser α} (h : Makes (Among isCore) p fun _ => True) :
      keepingLayers.By call p := layers_of_makes hcall h
  have postfixed : keepingLayers.By call postfixType :=
    fun s => (findsType_postfixType hcall htype s).layered
  exact .bind (plain (by simp)) fun _ => .ite (.bind postfixed fun _ => .pure) .pure

theorem findsType_compositionType (s : State) : s.FindsType (compositionType.run call s) := by
  intro hs
  rw [compositionType, run_bind, run_ite]
  rcases findsType_postfixType hcall htype s hs with ⟨hfound, htop⟩ | ⟨hmissing, hlayered, hbuilt⟩
  · rw [if_pos hfound, run_sees_bind, run_ite]
    refine .inl ?_
    split
    · rw [run_bind, run_pure]
      exact ⟨rfl, topped_wrap htop (.repeating (layers_joinedType hcall htype)) rfl rfl⟩
    · exact ⟨rfl, htop⟩
  · rw [if_neg (by simp [hmissing]), run_pure]
    exact .inr ⟨rfl, hlayered, hbuilt⟩

/-! ### The rule -/

/-- Specifiers and attributes are no types, so the type behind them is the only one. -/
theorem topped_attributedType (hs : s.Everywhere Tree.Layered) :
    ((node .attributedType (do
      repeating typeSpecifier
      attributes
      follow' .type)).run call s).2.Topped s.built := by
  have hprefix : keepingLayers.By call (do repeating typeSpecifier; attributes) :=
    layers_of_makes hcall (by simp [typeSpecifier])
  have hbare : Bare call (do repeating typeSpecifier; attributes) :=
    .bind (.repeating bare_typeSpecifier) fun _ => bare_attributes
  have hlayered := hprefix (s.start false) (hs.start false)
  have hadds := hbare (s.start false)
  rw [run_bind] at hlayered hadds
  rw [run_node, run_bind, run_bind, run_follow']
  refine ⟨hs.finish ((htype _).layered hlayered) fun k hk => ?_, .node .attributedType _, rfl, rfl⟩
  obtain rfl := Option.some.inj hk
  exact layered_of_findsType hadds (htype _) hlayered

theorem findsType_typeExpr (s : State) : s.FindsType (typeExpr.run call s) := by
  have plain {α : Type} {p : Parser α} (h : Makes (Among isCore) p fun _ => True) :
      keepingLayers.By call p := layers_of_makes hcall h
  have composition : keepingLayers.By call compositionType :=
    fun s => (findsType_compositionType hcall htype s).layered
  simp only [typeExpr, run_view_bind, run_ite]
  split
  · rw [run_bind, run_pure]
    exact .found (topped_attributedType hcall htype)
  · split
    · have hinner : keepingLayers.By call (do bump; let _ ← compositionType; pure ()) :=
        .bind (plain (by simp)) fun _ => .bind composition fun _ => .pure
      rw [run_bind, run_node, run_pure]
      refine .found fun hs => ⟨hs.finish (hinner _ (hs.start false)) fun k hk => ?_, _, rfl, rfl⟩
      obtain rfl := Option.some.inj hk
      trivial
    · exact findsType_compositionType hcall htype s

end Rules

/-! ## Files -/

/-- Following a rule keeps types layered, and the rule for types adds one type at most. -/
theorem layers_runRule (depth : Nat) :
    (∀ r s, keepingLayers.rel s (runRule depth r s).2) ∧
      ∀ s : State, s.FindsType (runRule depth .type s) := by
  induction depth with
  | zero => exact ⟨fun _ s => keepingLayers.refl s, fun s hs => .inr ⟨rfl, hs, rfl⟩⟩
  | succ depth ih =>
    obtain ⟨hcall, htype⟩ := ih
    have hrule : ∀ s : State, s.FindsType (runRule (depth + 1) .type s) :=
      findsType_typeExpr hcall htype
    refine ⟨fun r s => ?_, hrule⟩
    by_cases hr : r = .type
    · subst hr
      exact (hrule s).layered
    · have hblock : keepingLayers.By (runRule depth) memberBlock :=
        layers_of_makes hcall (by simp +decide [memberBlock])
      exact by_body (fun _ => NodeKind.isCore_of_isOrdinary) hcall hblock hr s

theorem layered_parseLexemes (lexemes : List Lexeme) (endGap : Gap) :
    (parseLexemes lexemes endGap).Everywhere Tree.Layered :=
  by_file (K := keepingLayers) (fun _ => NodeKind.isCore_of_isOrdinary) (layers_runRule _).1 _
    (nofun : ∀ x ∈ [], Tree.Everywhere _ x)

end Grammar

/-! ## Runs without bounds -/

namespace State

variable {s t : State} {rest : List Tree}

/-- What has been built is a type and `rest` before it. -/
def TopsType (rest : List Tree) (s : State) : Prop := ∃ x, x.isType = true ∧ s.built = x :: rest

/-- What the rule for types does where nothing cuts it off: it adds a type and tells so, or a
    problem has been reported. -/
def AddsType (s : State) (found : Bool) (t : State) : Prop :=
  (found = true ∧ t.TopsType s.built) ∨ (found = false ∧ t.reports ≠ [])

end State

namespace Grammar

open SwiftOutline.Parser SwiftOutline.State

variable {α : Type} {G : Outcomes} {s : State} {rest : List Tree} {k : NodeKind}

theorem wlp_node_type (hk : k.isType = true) (p : Parser α) (s : State) :
    wlp G (node k p) (fun _ t => t.TopsType s.built) s :=
  wlp_andThen (wlp_of_forall (fun _ t => ⟨.node k t.built.reverse, hk, rfl⟩) _)

/-- What stands behind a type makes a bigger type of it. -/
theorem wlp_wrap_type (hk : k.isType = true) (p : Parser α) (h : s.TopsType rest) :
    wlp G (wrap k p) (fun _ t => t.TopsType rest) s := by
  obtain ⟨x, -, hbuilt⟩ := h
  refine wlp_andThen (wlp_of_forall (fun _ t => ?_) _)
  exact ⟨.node k t.built.reverse, hk, by simp [State.finish, hbuilt]⟩

theorem wlp_typeSuffix (h : s.TopsType rest) :
    wlp G typeSuffix (fun _ t => t.TopsType rest) s := by
  have wrapped {k : NodeKind} (hk : k.isType = true) (p : Parser Unit) :
      wlp G (do wrap k p; pure true) (fun _ t => t.TopsType rest) s :=
    wlp_bind (wlp_wrap_type hk p h)
  refine wlp_view_bind ?_
  split
  · split
    · exact h
    · exact wrapped rfl _
  · split
    · exact h
    · exact wrapped rfl _
  · split
    · exact wrapped rfl _
    · exact h
  · exact h

theorem wlp_typeTail (tuple : Bool) (h : s.TopsType rest) :
    wlp G (typeTail tuple) (fun _ t => t.TopsType rest) s := by
  have suffixes {t : State} (ht : t.TopsType rest) :
      wlp G (repeating typeSuffix) (fun _ t => t.TopsType rest) t := by
    refine wlp_repeating ht fun u hu => wlp_mono (fun b v hv => ?_) (wlp_typeSuffix hu)
    cases b <;> exact hv
  refine wlp_view_bind ?_
  split
  · exact wlp_bind (wlp_mono (fun _ _ ht => suffixes ht) (wlp_wrap_type rfl _ h))
  · exact suffixes h

theorem wlp_collectionType (s : State) :
    wlp G collectionType (fun _ t => t.TopsType s.built) s := by
  -- the last step of the node tells its kind
  have hkind : Ends (fun k? _ => ∃ k, k? = some k ∧ k.isType = true) (do
      bump
      follow' .type
      let keyed ← eat .colon
      if keyed then follow' .type
      require .rBracket .openCollectionType
      pure (some (if keyed then NodeKind.dictionaryType else .arrayType))) := by
    refine .bind fun _ => .bind fun _ => .bind fun keyed => ?_
    cases keyed with
    | true => exact .bind fun _ => .bind fun _ => .pure fun _ => ⟨_, rfl, rfl⟩
    | false => exact .bind fun _ => .pure fun _ => ⟨_, rfl, rfl⟩
  refine wlp_bind (wlp_andThen (wlp_mono (fun k? t hk => ?_) (hkind G _)))
  obtain ⟨k, rfl, hk⟩ := hk
  exact ⟨.node k t.built.reverse, hk, rfl⟩

theorem wlp_primaryType (s : State) : wlp G primaryType s.AddsType s := by
  have found {p : Parser Unit} (hp : wlp G p (fun _ t => t.TopsType s.built) s) :
      wlp G (do p; pure true) s.AddsType s :=
    wlp_bind (wlp_mono (fun _ _ ht => .inl ⟨rfl, ht⟩) hp)
  refine wlp_kind_bind ?_
  split
  iterate 3 exact found (wlp_node_type rfl _ s)
  · exact found (wlp_collectionType s)
  · exact found (wlp_node_type rfl _ s)
  · exact .inr ⟨rfl, List.cons_ne_nil _ _⟩

theorem wlp_postfixType (s : State) : wlp G postfixType s.AddsType s := by
  refine wlp_sees_bind (wlp_bind (wlp_mono (fun b t ht => ?_) (wlp_primaryType s)))
  rcases ht with ⟨rfl, htop⟩ | ⟨rfl, hreports⟩
  · exact wlp_bind (wlp_mono (fun _ _ hu => .inl ⟨rfl, hu⟩) (wlp_typeTail _ htop))
  · exact .inr ⟨rfl, hreports⟩

theorem wlp_compositionType (s : State) : wlp G compositionType s.AddsType s := by
  refine wlp_bind (wlp_mono (fun b t ht => ?_) (wlp_postfixType s))
  rcases ht with ⟨rfl, htop⟩ | ⟨rfl, hreports⟩
  · refine wlp_sees_bind ?_
    split
    · exact wlp_bind (wlp_mono (fun _ _ hu => .inl ⟨rfl, hu⟩) (wlp_wrap_type rfl _ htop))
    · exact .inl ⟨rfl, htop⟩
  · exact .inr ⟨rfl, hreports⟩

/-- Without bounds the rule for types adds a type, or it reports that there is none. -/
theorem wlp_typeExpr (s : State) : wlp G typeExpr s.AddsType s := by
  have found {k : NodeKind} (hk : k.isType = true) (p : Parser Unit) :
      wlp G (do node k p; pure true) s.AddsType s :=
    wlp_bind (wlp_mono (fun _ _ ht => .inl ⟨rfl, ht⟩) (wlp_node_type hk p s))
  refine wlp_view_bind ?_
  split
  · exact found rfl _
  split
  · exact found rfl _
  · exact wlp_compositionType s

end Grammar

/-- In the tree of a text, every layer around a type has at most one type inside. -/
theorem layered_parse (source : String) : (parse source).tree.Everywhere Tree.Layered :=
  everywhere_parse Tree.layered_of_withoutTrivia (fun _ => trivial)
    (Grammar.layered_parseLexemes _ _)

end SwiftOutline
