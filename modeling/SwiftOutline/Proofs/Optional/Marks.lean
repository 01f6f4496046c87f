/-
  SwiftOutline.Proofs.Optional.Marks

  Where the marks of optionals stand. While the parser runs, each name and each
  collection type inside a node is part of a marked type if and only if a mark
  directly follows it. Only the rule for types has to be looked at: when it ends,
  the next lexeme is no mark that belongs to the type built last.
-/
import SwiftOutline.Proofs.Parser.Growth
import SwiftOutline.Proofs.Parser.Kinds

namespace SwiftOutline

/-! ## Kinds of types -/

namespace NodeKind

/-- Whether the optionality of a type of this kind is looked for behind it. -/
def isMarkable : NodeKind → Bool
  | .simpleType | .arrayType | .dictionaryType => true
  | _ => false

/-- Whether a node of this kind is a type with the mark of an optional behind it. -/
def isMarked : NodeKind → Bool
  | .optionalType | .implicitlyUnwrappedOptionalType => true
  | _ => false

/-- Whether a node of this kind has nothing to do with marks. -/
def isUnmarkable (k : NodeKind) : Bool := !k.isMarkable && !k.isMarked

theorem isUnmarkable_of_isOrdinary {k : NodeKind} (h : k.isOrdinary = true) :
    k.isUnmarkable = true := by
  cases k <;> first | rfl | exact absurd h (by decide)

end NodeKind

instance : NodeKind.HasOrdinary NodeKind.isUnmarkable := ⟨NodeKind.isUnmarkable_of_isOrdinary⟩

/-! ## Marks among lexemes -/

namespace Lexeme

/-- Whether the lexeme is a `?` or `!` that directly follows the one before it. -/
def isMark (l : Lexeme) : Bool :=
  (l.kind == .question || l.kind == .exclamation) && !l.gap.trivia

/-- Whether there is a mark where `n` of the lexemes are left. -/
def markAt (ls : List Lexeme) (n : Nat) : Bool := (ls.drop (ls.length - n)).head?.any isMark

theorem markAt_of_suffix {ls rest : List Lexeme} (h : rest <:+ ls) :
    markAt ls rest.length = rest.head?.any isMark := by
  obtain ⟨eaten, rfl⟩ := h
  simp [markAt]

end Lexeme

/-! ## Marks in trees -/

namespace Tree

mutual

/-- Types and marks in a tree agree, when `behind` tokens stand behind it, `mark` tells where marks
    are and `marked` whether the tree is part of a marked type. -/
inductive MarksAgree (mark : Nat → Bool) : (marked : Bool) → Tree → (behind : Nat) → Prop where
  | leaf {marked : Bool} {t : Token} {behind : Nat} : MarksAgree mark marked (.leaf t) behind
  | node {marked : Bool} {k : NodeKind} {children : List Tree} {behind : Nat}
      (here : k.isMarkable = true → mark behind = marked)
      (inside : ForestMarksAgree mark k.isMarked children behind) :
      MarksAgree mark marked (.node k children) behind

/-- Types and marks in a sequence of trees agree. -/
inductive ForestMarksAgree (mark : Nat → Bool) :
    (marked : Bool) → List Tree → (behind : Nat) → Prop where
  | nil {marked : Bool} {behind : Nat} : ForestMarksAgree mark marked [] behind
  | cons {marked : Bool} {t : Tree} {ts : List Tree} {behind : Nat}
      (first : MarksAgree mark marked t ((forestLeaves ts).length + behind))
      (rest : ForestMarksAgree mark marked ts behind) :
      ForestMarksAgree mark marked (t :: ts) behind

end

variable {mark : Nat → Bool} {marked : Bool} {behind : Nat}

theorem marksAgree_node_iff {k : NodeKind} {children : List Tree} :
    MarksAgree mark marked (.node k children) behind ↔
      (k.isMarkable = true → mark behind = marked) ∧
        ForestMarksAgree mark k.isMarked children behind :=
  ⟨fun | .node here inside => ⟨here, inside⟩, fun h => .node h.1 h.2⟩

theorem forestMarksAgree_cons_iff {t : Tree} {ts : List Tree} :
    ForestMarksAgree mark marked (t :: ts) behind ↔
      MarksAgree mark marked t ((forestLeaves ts).length + behind) ∧
        ForestMarksAgree mark marked ts behind :=
  ⟨fun | .cons first rest => ⟨first, rest⟩, fun h => .cons h.1 h.2⟩

theorem forestMarksAgree_append (ts us : List Tree) :
    ForestMarksAgree mark marked (ts ++ us) behind ↔
      ForestMarksAgree mark marked ts ((forestLeaves us).length + behind) ∧
        ForestMarksAgree mark marked us behind := by
  induction ts with
  | nil => exact ⟨fun h => ⟨.nil, h⟩, And.right⟩
  | cons t ts ih =>
    rw [List.cons_append, forestMarksAgree_cons_iff, forestMarksAgree_cons_iff, ih,
      forestLeaves_append, List.length_append, Nat.add_assoc, and_assoc]

/-- Types and marks agree in the children of a tree. -/
def MarksAgreeInside (mark : Nat → Bool) (t : Tree) (behind : Nat) : Prop :=
  ∀ k, t.nodeKind? = some k → ForestMarksAgree mark k.isMarked t.children behind

theorem marksAgree_iff {t : Tree} :
    MarksAgree mark marked t behind ↔
      (∀ k, t.nodeKind? = some k → k.isMarkable = true → mark behind = marked) ∧
        t.MarksAgreeInside mark behind := by
  cases t with
  | leaf t => exact ⟨fun _ => ⟨nofun, nofun⟩, fun _ => .leaf⟩
  | node k children => simp [marksAgree_node_iff, MarksAgreeInside, nodeKind?, Tree.children]

end Tree

/-! ## Marks behind what has been built -/

namespace State

variable {s t : State} {ls : List Lexeme}

/-- Types and marks agree in what has been built out of `ls`, none of which is yet part of a marked
    type. -/
structure MarksAgree (ls : List Lexeme) (s : State) : Prop where
  forest : Tree.ForestMarksAgree (Lexeme.markAt ls) false s.built.reverse s.left

/-- Types and marks agree in what has been built, but the element built last may be a type to
    which the next lexeme belongs as its mark. -/
structure MarksOpen (ls : List Lexeme) (s : State) : Prop where
  before : ∀ t before, s.built = t :: before →
    Tree.ForestMarksAgree (Lexeme.markAt ls) false before.reverse (t.leaves.length + s.left)
  inside : ∀ t before, s.built = t :: before →
    t.MarksAgreeInside (Lexeme.markAt ls) s.left

/-- What runs outside the rule for types do: they consume lexemes of `ls`, and types and marks
    still agree. -/
structure KeepsMarks (ls : List Lexeme) (s t : State) : Prop where
  leads : s.Leads t
  agree : s.view.lexemes <:+ ls → s.MarksAgree ls → t.MarksAgree ls

theorem Leads.suffix (h : s.Leads t) : t.view.lexemes <:+ s.view.lexemes := by
  obtain ⟨eaten, hl, -⟩ := h
  exact ⟨eaten, hl.symm⟩

theorem marksAgree_built_cons {t : Tree} {before : List Tree} (h : s.built = t :: before) :
    s.MarksAgree ls ↔
      Tree.ForestMarksAgree (Lexeme.markAt ls) false before.reverse (t.leaves.length + s.left) ∧
        t.MarksAgree (Lexeme.markAt ls) false s.left := by
  have hforest : Tree.ForestMarksAgree (Lexeme.markAt ls) false s.built.reverse s.left ↔
      Tree.ForestMarksAgree (Lexeme.markAt ls) false before.reverse (t.leaves.length + s.left) ∧
        t.MarksAgree (Lexeme.markAt ls) false s.left := by
    rw [h, List.reverse_cons, Tree.forestMarksAgree_append, Tree.forestMarksAgree_cons_iff]
    simp [Tree.forestLeaves, Tree.ForestMarksAgree.nil]
  exact ⟨fun hs => hforest.mp hs.forest, fun hs => ⟨hforest.mpr hs⟩⟩

/-! ### Operations -/

theorem KeepsMarks.refl (s : State) : s.KeepsMarks ls s := ⟨.refl s, fun _ h => h⟩

theorem KeepsMarks.trans {u : State} (h : s.KeepsMarks ls t) (h' : t.KeepsMarks ls u) :
    s.KeepsMarks ls u :=
  ⟨h.leads.trans h'.leads, fun hls hs =>
    h'.agree (h.leads.suffix.trans hls) (h.agree hls hs)⟩

theorem keepsMarks_consume (s : State) : s.KeepsMarks ls s.consume := by
  refine ⟨s.leads_consume, fun _ hs => ?_⟩
  cases hend : s.view.atEnd with
  | true => rwa [consume_of_atEnd hend]
  | false =>
    obtain ⟨l, rest, hl, -, hconsume⟩ := consume_of_not_atEnd hend
    have hleft : s.left = 1 + rest.length := by rw [left, hl, List.length_cons, Nat.add_comm]
    rw [hconsume, marksAgree_built_cons rfl]
    refine ⟨?_, .leaf⟩
    show Tree.ForestMarksAgree _ _ _ (1 + rest.length)
    rw [← hleft]
    exact hs.forest

/-- A node whose kind has nothing to do with marks agrees if what it is made of does. -/
theorem KeepsMarks.finish {adopt : Bool} {k? : Option NodeKind}
    (h : (s.start adopt).KeepsMarks ls t) (hk : ∀ k, k? = some k → k.isUnmarkable = true) :
    s.KeepsMarks ls (t.finish s adopt k?) := by
  refine ⟨h.leads.finish, fun hls hs => ?_⟩
  obtain ⟨before, hbuilt, hbefore⟩ := s.exists_built_start adopt
  have hforest := hs.forest
  rw [hbuilt, List.reverse_append, Tree.forestMarksAgree_append] at hforest
  have hinside : t.MarksAgree ls := h.agree hls ⟨hforest.2⟩
  -- what stands before has as many tokens behind it as before
  have hlength : (Tree.forestLeaves (s.start adopt).built.reverse).length + s.left =
      (Tree.forestLeaves t.built.reverse).length + t.left := h.leads.length_add_left.symm
  rw [hlength] at hforest
  cases k? with
  | none =>
    refine ⟨?_⟩
    rw [State.finish, hbefore, List.reverse_append, Tree.forestMarksAgree_append]
    exact ⟨hforest.1, hinside.forest⟩
  | some k =>
    have hk' := hk k rfl
    simp only [NodeKind.isUnmarkable, Bool.and_eq_true, Bool.not_eq_true'] at hk'
    rw [State.finish, hbefore, marksAgree_built_cons rfl]
    refine ⟨hforest.1, .node (by simp [hk'.1]) ?_⟩
    rw [hk'.2]
    exact hinside.forest

theorem KeepsMarks.withDirectives {m n : Nat} (h : (s.withDirectives m).KeepsMarks ls t) :
    s.KeepsMarks ls (t.withDirectives n) :=
  ⟨h.leads.withDirectives, fun hls hs => ⟨(h.agree hls ⟨hs.forest⟩).forest⟩⟩

/-- Types and marks agree behind every program that makes neither. -/
def keepingMarks (ls : List Lexeme) : Parser.Kept where
  rel := KeepsMarks ls
  free k := k.isUnmarkable = true
  refl := .refl
  trans := .trans
  consume := keepsMarks_consume
  complain _ _ := ⟨⟨[], rfl, by simp, by simp [complain]⟩, fun _ h => ⟨h.forest⟩⟩
  finish := .finish
  withDirectives := .withDirectives

/-! ### Types -/

/-- If the next lexeme is no mark, there is nothing open. -/
theorem MarksOpen.close (h : s.MarksOpen ls) (hls : s.view.lexemes <:+ ls)
    (hmark : s.view.lexemes.head?.any Lexeme.isMark = false) : s.MarksAgree ls := by
  cases hbuilt : s.built with
  | nil => exact ⟨by rw [hbuilt]; exact .nil⟩
  | cons t before =>
    rw [marksAgree_built_cons hbuilt, Tree.marksAgree_iff]
    refine ⟨h.before t before hbuilt, fun _ _ _ => ?_, h.inside t before hbuilt⟩
    rw [left, Lexeme.markAt_of_suffix hls, hmark]

theorem MarksAgree.open (h : s.MarksAgree ls) : s.MarksOpen ls := by
  refine ⟨fun t before hbuilt => ?_, fun t before hbuilt => ?_⟩
  · exact ((marksAgree_built_cons hbuilt).mp h).1
  · exact (Tree.marksAgree_iff.mp ((marksAgree_built_cons hbuilt).mp h).2).2

/-- Behind a node of any kind that is not marked by itself, the next lexeme decides. -/
theorem KeepsMarks.marksOpen_finish {k : NodeKind} (h : (s.start false).KeepsMarks ls t)
    (hk : k.isMarked = false) (hls : s.view.lexemes <:+ ls) (hs : s.MarksAgree ls) :
    (t.finish s false (some k)).MarksOpen ls := by
  have hinside : t.MarksAgree ls := h.agree hls ⟨.nil⟩
  have hlength : (Tree.forestLeaves t.built.reverse).length + t.left = s.left := by
    rw [h.leads.length_add_left]
    exact Nat.zero_add _
  refine ⟨fun u before hu => ?_, fun u before hu => ?_⟩
  · obtain ⟨rfl, rfl⟩ := List.cons.inj hu
    show Tree.ForestMarksAgree _ _ s.built.reverse
      ((Tree.forestLeaves t.built.reverse).length + t.left)
    rw [hlength]
    exact hs.forest
  · obtain ⟨rfl, rfl⟩ := List.cons.inj hu
    intro k' hk'
    obtain rfl : k = k' := Option.some.inj hk'
    rw [hk]
    exact hinside.forest

/-- A mark becomes part of a marked type together with the type before it. -/
theorem MarksOpen.wrap {k : NodeKind} {l : Lexeme} {rest : List Lexeme} (h : s.MarksOpen ls)
    (hls : s.view.lexemes <:+ ls) (hl : s.view.lexemes = l :: rest) (hmark : l.isMark = true)
    (hk : k.isMarked = true) :
    ((s.start true).consume.finish s true (some k)).MarksAgree ls := by
  have hhead : Lexeme.markAt ls s.left = true := by
    rw [left, Lexeme.markAt_of_suffix hls, hl]
    exact hmark
  have heof : (l.kind == .eof) = false := by
    simp only [Lexeme.isMark, Bool.and_eq_true, Bool.or_eq_true, beq_iff_eq] at hmark
    rcases hmark.1 with h | h <;> simp [h]
  have hleft : s.left = 1 + rest.length := by rw [left, hl, List.length_cons, Nat.add_comm]
  have hmarkable : k.isMarkable = false := by
    cases k <;> simp_all [NodeKind.isMarked, NodeKind.isMarkable]
  -- the node that the mark ends
  have hfinish : (s.start true).consume.finish s true (some k) =
      { s with
        view := { s.view with lexemes := rest }
        built := .node k ((s.built.take 1).reverse ++ [.leaf l.token]) :: s.built.drop 1 } := by
    simp [consume, start, finish, hl, heof]
  rw [hfinish, marksAgree_built_cons rfl, Tree.marksAgree_node_iff, hmarkable, hk]
  cases hbuilt : s.built with
  | nil => exact ⟨.nil, (absurd · Bool.false_ne_true), .cons .leaf .nil⟩
  | cons t before =>
    have hbefore := h.before t before hbuilt
    have hinside := h.inside t before hbuilt
    refine ⟨?_, (absurd · Bool.false_ne_true), .cons ?_ (.cons .leaf .nil)⟩
    · show Tree.ForestMarksAgree _ _ before.reverse ((t.leaves ++ [l.token]).length + rest.length)
      rwa [List.length_append, List.length_singleton, Nat.add_assoc, ← hleft]
    · show t.MarksAgree _ _ (1 + rest.length)
      rw [← hleft]
      exact Tree.marksAgree_iff.mpr ⟨fun _ _ _ => hhead, hinside⟩

end State

/-! ## Marks in the rule for types -/

namespace Grammar

open SwiftOutline.Parser

variable {call : Rule → State → Bool × State} {s : State} {ls : List Lexeme}

/-- A program that makes neither types that a mark can follow nor such with their marks. -/
abbrev Unmarking {α : Type} (p : Parser α) (P : α → Prop) : Prop :=
  Makes (NodeKind.Among NodeKind.isUnmarkable) p P

/-- A program that makes no types has its marks agree. -/
theorem keepsMarks_of_unmarking {α : Type} (p : Parser α)
    (hcall : ∀ r s, State.KeepsMarks ls s (call r s).2) (h : Unmarking p fun _ => True)
    (s : State) : s.KeepsMarks ls (p.run call s).2 :=
  (Makes.run (K := State.keepingMarks ls) hcall h s).1

theorem head?_isMark_of_kind (h : s.view.kind ≠ .question) (h' : s.view.kind ≠ .exclamation) :
    s.view.lexemes.head?.any Lexeme.isMark = false := by
  cases hl : s.view.lexemes with
  | nil => rfl
  | cons l rest => simp_all [Lexeme.isMark, View.kind, View.kindAt]

/-- A suffix is taken exactly where a type is open. -/
theorem typeSuffix_marks (hls : s.view.lexemes <:+ ls) (h : s.MarksOpen ls)
    (hcall : ∀ r s, State.KeepsMarks ls s (call r s).2) :
    (typeSuffix.run call s).2.MarksAgree ls := by
  have hmark : ∀ k : TokenKind, s.view.kind = k → (k = .question ∨ k = .exclamation) →
      ∃ l rest, s.view.lexemes = l :: rest ∧ l.isMark = !s.view.gap.trivia := by
    intro k hk hor
    cases hl : s.view.lexemes with
    | nil =>
      rw [View.kind, View.kindAt, hl] at hk
      rcases hor with rfl | rfl <;> cases hk
    | cons l rest =>
      refine ⟨l, rest, rfl, ?_⟩
      simp_all [Lexeme.isMark, View.kind, View.kindAt, View.gap, View.gapAt]
  simp only [typeSuffix, run_view_bind]
  split
  · next hk =>
    obtain ⟨l, rest, hl, hlmark⟩ := hmark _ hk (.inl rfl)
    simp only [run_ite, run_bind, run_wrap, run_bump, run_pure]
    split
    · next htrivia => exact h.close hls (by simp [hl, hlmark, htrivia])
    · next htrivia =>
      exact h.wrap hls hl (by simp [hlmark, htrivia]) rfl
  · next hk =>
    obtain ⟨l, rest, hl, hlmark⟩ := hmark _ hk (.inr rfl)
    simp only [run_ite, run_bind, run_wrap, run_bump, run_pure]
    split
    · next htrivia => exact h.close hls (by simp [hl, hlmark, htrivia])
    · next htrivia =>
      exact h.wrap hls hl (by simp [hlmark, htrivia]) rfl
  · next hk =>
    have hs : s.MarksAgree ls :=
      h.close hls (head?_isMark_of_kind (by simp [hk]) (by simp [hk]))
    rw [run_ite]
    split
    · exact (keepsMarks_of_unmarking _ hcall (by simp +decide) s).agree hls hs
    · exact hs
  · next hq he _ => exact h.close hls (head?_isMark_of_kind hq he)

/-- A node of a kind that its program names is open. -/
theorem marksOpen_node? {p : Parser (Option NodeKind)}
    (hcall : ∀ r s, State.KeepsMarks ls s (call r s).2)
    (hp : Unmarking p fun k? => ∃ k, k? = some k ∧ k.isMarked = false)
    (hls : s.view.lexemes <:+ ls) (hs : s.MarksAgree ls) :
    ((node? p).run call s).2.MarksOpen ls := by
  obtain ⟨hkeeps, k, hk, hmarked⟩ :=
    Makes.run (K := State.keepingMarks ls) hcall hp (s.start false)
  rw [run_node?, hk]
  exact State.KeepsMarks.marksOpen_finish hkeeps hmarked hls hs

/-- The first type is open, unless it is a tuple type or missing. -/
theorem primaryType_marks (hcall : ∀ r s, State.KeepsMarks ls s (call r s).2)
    (hls : s.view.lexemes <:+ ls) (hs : s.MarksAgree ls) :
    (primaryType.run call s).2.MarksOpen ls ∧
      (s.view.kind = .lParen ∨ (primaryType.run call s).1 = false →
        (primaryType.run call s).2.MarksAgree ls) := by
  have simple : (simpleType.run call s).2.MarksOpen ls := by
    rw [simpleType, run_node]
    exact (keepsMarks_of_unmarking _ hcall (by simp [joinedGenericArguments]) _).marksOpen_finish
      rfl hls hs
  have collection : (collectionType.run call s).2.MarksOpen ls := by
    rw [collectionType, run_bind, run_pure]
    exact marksOpen_node? hcall (by simp; grind [NodeKind.isMarked]) hls hs
  have tuple : (tupleType.run call s).2.MarksAgree ls :=
    (keepsMarks_of_unmarking tupleType hcall
      (by simp +decide [tupleType, tupleTypeElement]) s).agree hls hs
  simp only [primaryType, run_kind_bind]
  split
  · next hk =>
    simp only [run_bind, run_pure]
    exact ⟨simple, by simp [hk]⟩
  · next hk =>
    simp only [run_bind, run_pure]
    exact ⟨simple, by simp [hk]⟩
  · next hk =>
    simp only [run_bind, run_pure]
    exact ⟨simple, by simp [hk]⟩
  · next hk =>
    simp only [run_bind, run_pure]
    exact ⟨collection, by simp [hk]⟩
  · simp only [run_bind, run_pure]
    exact ⟨tuple.open, fun _ => tuple⟩
  · simp only [run_bind, run_report, run_pure]
    have hcomplain : (s.complain .noType).MarksAgree ls := ⟨hs.forest⟩
    exact ⟨hcomplain.open, fun _ => hcomplain⟩

/-- The marks behind a type are taken, and then nothing is open. -/
theorem typeTail_marks {tuple : Bool} (hcall : ∀ r s, State.KeepsMarks ls s (call r s).2)
    (hls : s.view.lexemes <:+ ls) (hopen : s.MarksOpen ls)
    (htuple : tuple = true → s.MarksAgree ls) : ((typeTail tuple).run call s).2.MarksAgree ls := by
  have leads {α : Type} (p : Parser α) (t : State) : t.Leads (p.run call t).2 :=
    run_leads (fun r s => (hcall r s).leads) p t
  have suffixes (t : State) (ht : t.view.lexemes <:+ ls) (hopen : t.MarksOpen ls) :
      ((repeating typeSuffix).run call t).2.MarksAgree ls := by
    rw [run_repeating]
    refine (of_roundsOf (I := fun t => t.view.lexemes <:+ ls ∧ t.MarksOpen ls)
      (J := fun t => t.view.lexemes <:+ ls ∧ t.MarksAgree ls) (fun t ht => ?_)
      (fun t ht => ⟨ht.1, ht.2.open⟩) t.left ⟨ht, hopen⟩).2
    exact ⟨(leads typeSuffix t).suffix.trans ht.1, typeSuffix_marks ht.1 ht.2 hcall⟩
  simp only [typeTail, run_bind, run_ite]
  split
  · next h =>
    rw [Bool.and_eq_true] at h
    have hfunction := keepsMarks_of_unmarking (wrap .functionType (do effects; returnClause)) hcall
      (by simp +decide) s
    exact suffixes _ (hfunction.leads.suffix.trans hls) (hfunction.agree hls (htuple h.1)).open
  · exact suffixes s hls hopen

theorem keepsMarks_postfixType (hcall : ∀ r s, State.KeepsMarks ls s (call r s).2) (s : State) :
    s.KeepsMarks ls (postfixType.run call s).2 := by
  have leads {α : Type} (p : Parser α) (t : State) : t.Leads (p.run call t).2 :=
    run_leads (fun r s => (hcall r s).leads) p t
  refine ⟨leads _ s, fun hls hs => ?_⟩
  obtain ⟨hopen, hclosed⟩ := primaryType_marks hcall hls hs
  simp only [postfixType, run_bind, run_ite]
  split
  · refine typeTail_marks hcall ((leads primaryType s).suffix.trans hls) hopen fun h => ?_
    exact hclosed (.inl (eq_of_beq h))
  · next h => exact hclosed (.inr (Bool.not_eq_true _ |>.mp h))

theorem keepsMarks_compositionType (hcall : ∀ r s, State.KeepsMarks ls s (call r s).2) :
    (State.keepingMarks ls).By call compositionType := by
  have unmarking {α : Type} {p : Parser α} (h : Unmarking p fun _ => True) :
      (State.keepingMarks ls).By call p := Makes.by hcall h
  have postfixed : (State.keepingMarks ls).By call postfixType := keepsMarks_postfixType hcall
  have joined : (State.keepingMarks ls).By call joinedType := by
    refine .bind (unmarking (by simp)) fun _ => .ite ?_ .pure
    exact .bind postfixed fun _ => .pure
  refine .bind postfixed fun _ => .ite (.bind (unmarking (by simp)) fun _ => ?_) .pure
  exact .ite (.bind (.wrap rfl (.repeating joined)) fun _ => .pure) .pure

theorem keepsMarks_typeExpr (hcall : ∀ r s, State.KeepsMarks ls s (call r s).2) :
    (State.keepingMarks ls).By call typeExpr := by
  have unmarking {α : Type} {p : Parser α} (h : Unmarking p fun _ => True) :
      (State.keepingMarks ls).By call p := Makes.by hcall h
  have composition := keepsMarks_compositionType hcall
  refine .bind (unmarking (by simp)) fun v => .ite ?_ (.ite ?_ composition)
  · exact unmarking (by simp +decide [typeSpecifier])
  · refine .bind (.node rfl ?_) fun _ => .pure
    exact .bind (unmarking (by simp)) fun _ => .bind composition fun _ => .pure

/-! ## Marks in files -/

/-- Following a rule keeps types and marks in agreement. -/
theorem keepsMarks_runRule (depth : Nat) (r : Rule) (s : State) :
    s.KeepsMarks ls (runRule depth r s).2 := by
  induction depth generalizing r s with
  | zero => exact .refl s
  | succ depth ih =>
    rw [runRule]
    by_cases hr : r = .type
    · subst hr
      exact keepsMarks_typeExpr ih s
    · have hblock : (State.keepingMarks ls).By (runRule depth) memberBlock :=
        keepsMarks_of_unmarking memberBlock ih (by simp +decide [memberBlock])
      exact by_body (fun _ => NodeKind.isUnmarkable_of_isOrdinary) ih hblock hr s

/-- In what parsing builds, a name or a collection type is part of a marked type if and only if a
    mark directly follows it. -/
theorem marksAgree_parseLexemes (lexemes : List Lexeme) (endGap : Gap) :
    (parseLexemes lexemes endGap).MarksAgree lexemes := by
  have hkeeps : (State.initial lexemes endGap).KeepsMarks lexemes (parseLexemes lexemes endGap) :=
    by_file (K := State.keepingMarks lexemes) (fun _ => NodeKind.isUnmarkable_of_isOrdinary)
      (keepsMarks_runRule _) _
  exact hkeeps.agree (List.suffix_refl _) ⟨.nil⟩

end Grammar

end SwiftOutline
