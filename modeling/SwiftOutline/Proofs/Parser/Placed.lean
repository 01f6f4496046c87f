/-
  SwiftOutline.Proofs.Parser.Placed

  Nodes and what stands behind them. Where a program ends a node it sees what is
  left; leaves keep their order, so that stands behind the node in the tree of the
  text. A property of nodes that tells how many tokens stand behind them is kept
  by every program that makes none of the nodes concerned.
-/
import SwiftOutline.Proofs.Parser.Filled
import SwiftOutline.Proofs.Parser.Makes
import SwiftOutline.Proofs.Tree.Neighbors

namespace SwiftOutline

/-! ## Trees -/

namespace Tree

variable {P : NodeKind → List Tree → Nat → Prop} {behind : Nat}

mutual

/-- Every node of a tree with `behind` tokens behind it has the property, which tells of its kind,
    its children and the number of tokens behind it. -/
def Placed (P : NodeKind → List Tree → Nat → Prop) : Tree → (behind : Nat) → Prop
  | .leaf _, _ => True
  | .node k children, behind => P k children behind ∧ AllPlaced P children behind

/-- So does every node of a sequence of trees with `behind` tokens behind it. -/
def AllPlaced (P : NodeKind → List Tree → Nat → Prop) : List Tree → (behind : Nat) → Prop
  | [], _ => True
  | t :: ts, behind => Placed P t ((forestLeaves ts).length + behind) ∧ AllPlaced P ts behind

end

theorem allPlaced_append (ts us : List Tree) :
    AllPlaced P (ts ++ us) behind ↔
      AllPlaced P ts ((forestLeaves us).length + behind) ∧ AllPlaced P us behind := by
  induction ts with
  | nil => exact ⟨fun h => ⟨trivial, h⟩, And.right⟩
  | cons t ts ih =>
    rw [List.cons_append, AllPlaced, AllPlaced, ih, forestLeaves_append, List.length_append,
      Nat.add_assoc, and_assoc]

theorem allPlaced_single {t : Tree} : AllPlaced P [t] behind ↔ Placed P t behind := by
  rw [AllPlaced, AllPlaced, and_true, forestLeaves, List.length_nil, Nat.zero_add]

end Tree

/-! ## States -/

namespace State

variable {P : NodeKind → List Tree → Nat → Prop} {ls : List Lexeme} {s t u : State}

/-- All nodes that have been built have the property, what is left being behind them. -/
structure Placed (P : NodeKind → List Tree → Nat → Prop) (s : State) : Prop where
  forest : Tree.AllPlaced P s.built.reverse s.left

/-- What runs do to the nodes that have been built out of the lexemes `ls`: they keep the property,
    unless a problem is reported. -/
structure KeepsPlaced (P : NodeKind → List Tree → Nat → Prop) (ls : List Lexeme) (s t : State) :
    Prop where
  reaches : s.Reaches t
  placed : t.reports = [] → s.view.lexemes <:+ ls → s.Placed P → t.Placed P

theorem Reaches.reports_eq_nil (h : s.Reaches t) (ht : t.reports = []) : s.reports = [] :=
  Classical.byContradiction fun hs => h.reports hs ht

theorem Reaches.suffix (h : s.Reaches t) : t.view.lexemes <:+ s.view.lexemes := by
  obtain ⟨eaten, hlexemes, -⟩ := h.leads
  exact ⟨eaten, hlexemes.symm⟩

theorem KeepsPlaced.refl (s : State) : s.KeepsPlaced P ls s := ⟨.refl s, fun _ _ hs => hs⟩

theorem KeepsPlaced.trans (h : s.KeepsPlaced P ls t) (h' : t.KeepsPlaced P ls u) :
    s.KeepsPlaced P ls u := by
  refine ⟨h.reaches.trans h'.reaches, fun hreports hls hs => ?_⟩
  have ht : t.Placed P := h.placed (h'.reaches.reports_eq_nil hreports) hls hs
  exact h'.placed hreports (h.reaches.suffix.trans hls) ht

theorem keepsPlaced_consume (s : State) : s.KeepsPlaced P ls s.consume := by
  refine ⟨s.reaches_consume, fun _ _ hs => ?_⟩
  cases hend : s.view.atEnd with
  | true => rwa [consume_of_atEnd hend]
  | false =>
    obtain ⟨l, rest, hl, -, hconsume⟩ := consume_of_not_atEnd hend
    have hleft : s.left = 1 + rest.length := by rw [left, hl, List.length_cons, Nat.add_comm]
    have hforest := hs.forest
    rw [hleft] at hforest
    rw [hconsume]
    refine ⟨?_⟩
    rw [List.reverse_cons, Tree.allPlaced_append]
    exact ⟨hforest, Tree.allPlaced_single.mpr trivial⟩

/-- A node that has the property where it ends, and what is made no node. -/
theorem KeepsPlaced.finish {adopt : Bool} {k? : Option NodeKind}
    (h : (s.start adopt).KeepsPlaced P ls t)
    (hk : ∀ k, k? = some k → t.reports = [] → s.view.lexemes <:+ ls →
      P k t.built.reverse t.left) : s.KeepsPlaced P ls (t.finish s adopt k?) := by
  refine ⟨h.reaches.finish, fun hreports hls hs => ?_⟩
  obtain ⟨before, hbuilt, hbefore⟩ := s.exists_built_start adopt
  have hforest := hs.forest
  rw [hbuilt, List.reverse_append, Tree.allPlaced_append] at hforest
  have hinside : t.Placed P := h.placed hreports hls ⟨hforest.2⟩
  -- what stands before has as many tokens behind it as before
  have hlength : (Tree.forestLeaves (s.start adopt).built.reverse).length + s.left =
      (Tree.forestLeaves t.built.reverse).length + t.left :=
    h.reaches.leads.length_add_left.symm
  rw [hlength] at hforest
  cases k? with
  | none =>
    refine ⟨?_⟩
    rw [State.finish, hbefore, List.reverse_append, Tree.allPlaced_append]
    exact ⟨hforest.1, hinside.forest⟩
  | some k =>
    have hnode : Tree.Placed P (.node k t.built.reverse) t.left :=
      ⟨hk k rfl hreports hls, hinside.forest⟩
    refine ⟨?_⟩
    rw [State.finish, hbefore, List.reverse_cons, Tree.allPlaced_append]
    refine ⟨?_, Tree.allPlaced_single.mpr hnode⟩
    rw [Tree.forestLeaves, Tree.forestLeaves, List.append_nil, Tree.leaves]
    exact hforest.1

/-- Programs keep a property that holds of nodes of free kinds anyway, if they make only such. -/
def keepingPlaced (P : NodeKind → List Tree → Nat → Prop) (ls : List Lexeme)
    (free : NodeKind → Prop) (hfree : ∀ k ts n, free k → P k ts n) : Parser.Kept where
  rel := KeepsPlaced P ls
  free := free
  refl := .refl
  trans := .trans
  consume := keepsPlaced_consume
  complain s p := ⟨s.reaches_complain p, fun hreports => absurd hreports (List.cons_ne_nil _ _)⟩
  finish h hk := h.finish fun k hk' _ _ => hfree k _ _ (hk k hk')
  withDirectives h := ⟨h.reaches.withDirectives, fun hreports hls hs =>
    ⟨(h.placed hreports hls ⟨hs.forest⟩).forest⟩⟩

end State

/-! ## Elements -/

namespace Cursor

open Token (significant)

variable {P : NodeKind → List Tree → Nat → Prop} {t : Tree} {c : Cursor}

/-- What is known of a tree without its trivia is known of all nodes in the tree, with the tokens
    behind them that are no trivia. -/
theorem placed_of_mem_nodes (h : t.withoutTrivia.Placed P 0) (hc : c ∈ (ofTree t).nodes) :
    c.tree.withoutTrivia.Placed P (significant c.behind).length := by
  refine forall_mem_nodes (P := fun c => c.tree.withoutTrivia.Placed P
    (significant c.behind).length) ?_ h c hc
  intro d hd e he
  obtain ⟨k, ts, u, us, htree, rfl⟩ := mem_elements.mp he
  rw [htree, Tree.withoutTrivia, Tree.Placed, Tree.forestWithoutTrivia_append,
    Tree.allPlaced_append, Tree.forestWithoutTrivia] at hd
  show u.withoutTrivia.Placed P (significant (Tree.forestLeaves us ++ d.behind)).length
  cases hu : u.isTriviaLeaf with
  | true =>
    cases u with
    | leaf b => trivial
    | node k children => cases hu
  | false =>
    rw [hu, if_neg Bool.false_ne_true, Tree.AllPlaced, Tree.forestLeaves_forestWithoutTrivia] at hd
    rw [Token.significant_append, List.length_append]
    exact hd.2.2.1

/-- What is known of the nodes that have been built holds of the nodes in the tree that is made of
    them, if nothing is left. -/
theorem of_placed {s : State} {root k : NodeKind} (h : s.Placed P) (hleft : s.left = 0)
    (hroot : P root s.built.reverse 0) (ht : t.withoutTrivia = .node root s.built.reverse)
    (hc : c ∈ (ofTree t).nodes) (hk : c.tree.nodeKind? = some k) :
    P k (Tree.forestWithoutTrivia c.tree.children) (significant c.behind).length := by
  have hplaced : t.withoutTrivia.Placed P 0 := by
    rw [ht]
    exact ⟨hroot, hleft ▸ h.forest⟩
  obtain ⟨children, htree⟩ := Tree.eq_node_of_nodeKind? hk
  have hnode := placed_of_mem_nodes hplaced hc
  rw [htree] at hnode ⊢
  exact hnode.1

end Cursor

end SwiftOutline
