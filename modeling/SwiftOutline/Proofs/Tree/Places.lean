/-
  SwiftOutline.Proofs.Tree.Places

  Places of one tree. Every step from a place, down to a child or over to a
  neighboring token, leads to another place of the same tree, so what stands
  before, in and behind an element adds up to the whole tree wherever the steps
  lead.
-/
import SwiftOutline.Proofs.Tree.Neighbors

namespace SwiftOutline

namespace Cursor

variable {t u : Tree} {c d e x : Cursor} {start : Nat} {above : List Frame}

/-! ## Places -/

/-- The places of the tree `t`: its root, and the children of its places. -/
inductive Within (t : Tree) : Cursor → Prop where
  | root : Within t (ofTree t)
  | child {c e : Cursor} (parent : Within t c) (mem : e ∈ c.elements) : Within t e

namespace Within

theorem of_mem_nodes (h : Within t c) (hx : x ∈ c.nodes) : Within t x :=
  forall_mem_nodes (fun _ hd _ he => .child hd he) h x hx

/-- An element inside a frame is a child of what the frame makes of it, and begins behind its
    earlier siblings. -/
theorem parent_of_above {f : Frame} (h : Within t ⟨u, start, f :: above⟩) :
    Within t ⟨f.parent u, f.start, above⟩ ∧ start = f.start + Tree.forestSize f.before.reverse := by
  generalize hc : (⟨u, start, f :: above⟩ : Cursor) = c at h
  cases h with
  | root => exact nomatch congrArg Cursor.above hc
  | @child p _ parent mem =>
    obtain ⟨k, ts, v, us, htree, rfl⟩ := mem_elements.mp mem
    simp only [Cursor.mk.injEq, List.cons.injEq] at hc
    obtain ⟨rfl, rfl, rfl, rfl⟩ := hc
    refine ⟨?_, by rw [List.reverse_reverse]⟩
    rw [Frame.parent, List.reverse_reverse, ← htree]
    exact parent

/-! ### Neighbors -/

theorem elementAfter (h : Within t ⟨u, start, above⟩)
    (he : Cursor.elementAfter u start above = some e) : Within t e := by
  induction above generalizing u start with
  | nil => exact nomatch he
  | cons f above ih =>
    obtain ⟨hparent, hstart⟩ := parent_of_above h
    rw [Cursor.elementAfter] at he
    split at he
    · next s rest hafter =>
      obtain rfl := Option.some.inj he
      refine .child hparent (mem_elements.mpr ⟨f.kind, f.before.reverse ++ [u], s, rest, ?_, ?_⟩)
      · rw [Frame.parent, hafter, List.append_assoc, List.singleton_append]
      · simp [Tree.forestSize_eq, Tree.forestLeaves_append, Token.totalSize_append,
          Tree.forestLeaves, ← Tree.size_eq, hstart, Nat.add_assoc]
    · exact ih hparent he

theorem elementBefore (h : Within t ⟨u, start, above⟩)
    (he : Cursor.elementBefore u start above = some e) : Within t e := by
  induction above generalizing u start with
  | nil => exact nomatch he
  | cons f above ih =>
    obtain ⟨hparent, hstart⟩ := parent_of_above h
    rw [Cursor.elementBefore] at he
    split at he
    · next s rest hbefore =>
      obtain rfl := Option.some.inj he
      refine .child hparent (mem_elements.mpr ⟨f.kind, rest.reverse, s, u :: f.after, ?_, ?_⟩)
      · rw [Frame.parent, hbefore, List.reverse_cons, List.append_assoc, List.singleton_append]
      · rw [hbefore, List.reverse_cons, Tree.forestSize_eq, Tree.forestLeaves_append,
          Token.totalSize_append, ← Tree.forestSize_eq, ← Tree.forestSize_eq, Tree.forestSize,
          Tree.forestSize, Nat.add_zero] at hstart
        have hback : start - s.size = f.start + Tree.forestSize rest.reverse := by omega
        rw [List.reverse_reverse, hback]
    · exact ih hparent he

/-! ### First and last tokens -/

mutual

theorem firstTokenOf (u : Tree) {start : Nat} {above : List Frame}
    (h : Within t ⟨u, start, above⟩) (hx : Cursor.firstTokenOf u start above = some x) :
    Within t x := by
  cases u with
  | leaf b =>
    obtain rfl := Option.some.inj hx
    exact h
  | node k children => exact firstTokenOfForest children h hx

theorem firstTokenOfForest (us : List Tree) {k : NodeKind} {start : Nat} {above : List Frame}
    (h : Within t ⟨.node k us, start, above⟩)
    (hx : Cursor.firstTokenOfForest k start above us = some x) : Within t x := by
  cases us with
  | nil => exact nomatch hx
  | cons u us =>
    refine firstTokenOf u (.child h ?_) hx
    exact List.mem_cons_self

end

mutual

theorem lastTokenOf (u : Tree) {start : Nat} {above : List Frame}
    (h : Within t ⟨u, start, above⟩) (hx : Cursor.lastTokenOf u start above = some x) :
    Within t x := by
  cases u with
  | leaf b =>
    obtain rfl := Option.some.inj hx
    exact h
  | node k children => exact lastTokenOfForest children [] h rfl hx

theorem lastTokenOfForest (us before : List Tree) {k : NodeKind} {start offset : Nat}
    {above : List Frame} (h : Within t ⟨.node k (before.reverse ++ us), start, above⟩)
    (hoffset : offset = start + Tree.forestSize before.reverse)
    (hx : Cursor.lastTokenOfForest k start above before offset us = some x) : Within t x := by
  match us, h, hx with
  | [u], h, hx =>
    refine lastTokenOf u (.child h ?_) hx
    exact mem_elements.mpr ⟨k, before.reverse, u, [], rfl, by rw [hoffset, List.reverse_reverse]⟩
  | u :: u' :: us, h, hx =>
    refine lastTokenOfForest (u' :: us) (u :: before) ?_ ?_ hx
    · rwa [List.reverse_cons, List.append_assoc]
    · rw [hoffset, List.reverse_cons, Tree.forestSize_eq, Tree.forestSize_eq,
        Tree.forestLeaves_append, Token.totalSize_append, Tree.size_eq, Nat.add_assoc]
      simp [Tree.forestLeaves]

end

/-! ### Steps and searches -/

theorem firstToken? (h : Within t c) (hx : c.firstToken? = some x) : Within t x :=
  firstTokenOf _ h hx

theorem lastToken? (h : Within t c) (hx : c.lastToken? = some x) : Within t x :=
  lastTokenOf _ h hx

theorem nextToken? (h : Within t c) (hx : c.nextToken? = some x) : Within t x := by
  obtain ⟨e, he, hx⟩ := Option.bind_eq_some_iff.mp hx
  exact (h.elementAfter he).firstToken? hx

theorem prevToken? (h : Within t c) (hx : c.prevToken? = some x) : Within t x := by
  obtain ⟨e, he, hx⟩ := Option.bind_eq_some_iff.mp hx
  exact (h.elementBefore he).lastToken? hx

theorem seek {step : Cursor → Option Cursor}
    (hstep : ∀ c x, Within t c → step c = some x → Within t x) {n : Nat} (h : Within t c)
    (hx : Cursor.seek step n c = some x) : Within t x := by
  induction n generalizing c with
  | zero => exact nomatch hx
  | succ n ih =>
    rw [Cursor.seek] at hx
    split at hx
    · exact Option.some.inj hx ▸ h
    · obtain ⟨d, hd, hx⟩ := Option.bind_eq_some_iff.mp hx
      exact ih (hstep c d h hd) hx

theorem firstSignificant? (h : Within t c) (hx : c.firstSignificant? = some x) : Within t x := by
  obtain ⟨d, hd, hx⟩ := Option.bind_eq_some_iff.mp (Option.filter_eq_some_iff.mp hx).1
  exact seek (fun _ _ => nextToken?) (h.firstToken? hd) hx

theorem lastSignificant? (h : Within t c) (hx : c.lastSignificant? = some x) : Within t x := by
  obtain ⟨d, hd, hx⟩ := Option.bind_eq_some_iff.mp (Option.filter_eq_some_iff.mp hx).1
  exact seek (fun _ _ => prevToken?) (h.lastToken? hd) hx

/-! ### The rest of the tree -/

/-- What stands before, in and behind a place is the whole tree, and the place begins where what
    stands before it ends. -/
theorem exists_leaves (h : Within t c) :
    ∃ front, t.leaves = front ++ (c.tree.leaves ++ c.behind) ∧ c.start = Token.totalSize front := by
  induction h with
  | root => exact ⟨[], by simp [ofTree, behind, tokensBehind], rfl⟩
  | @child p e _ mem ih =>
    obtain ⟨front, hleaves, hstart⟩ := ih
    obtain ⟨k, ts, u, us, htree, rfl⟩ := mem_elements.mp mem
    refine ⟨front ++ Tree.forestLeaves ts, ?_, ?_⟩
    · rw [hleaves, htree, Tree.leaves, Tree.forestLeaves_append, Tree.forestLeaves, behind, behind,
        tokensBehind]
      simp only [List.append_assoc]
    · rw [Token.totalSize_append, ← hstart, Tree.forestSize_eq]

theorem suffix (h : Within t c) : c.tree.leaves ++ c.behind <:+ t.leaves := by
  obtain ⟨front, hleaves, -⟩ := h.exists_leaves
  exact ⟨front, hleaves.symm⟩

/-- How much of the text stands behind a place tells where the place ends. -/
theorem stop_add (h : Within t c) :
    c.start + c.tree.size + Token.totalSize c.behind = t.size := by
  obtain ⟨front, hleaves, hstart⟩ := h.exists_leaves
  rw [Tree.size_eq t, hleaves, Token.totalSize_append, Token.totalSize_append, Tree.size_eq, hstart]
  omega

theorem stop_le (h : Within t c) : c.start + c.tree.size ≤ t.size := by
  have hsum := h.stop_add
  omega

/-- The root of all places is the root of the tree. -/
theorem root_eq (h : Within t c) : c.root = ofTree t := by
  induction h with
  | root => rfl
  | @child p e _ mem ih =>
    have hroot : e.root = p.root := by
      rw [Cursor.root, Cursor.root, ancestors_of_mem_elements mem, path]
      cases p.ancestors <;> rfl
    exact hroot.trans ih

end Within

end Cursor

end SwiftOutline
