/-
  SwiftOutline.Proofs.Tree.Balance

  Parentheses and square brackets among the tokens directly below a node. Read
  from left to right they lead from one depth to another, unless one closes more
  than is open; what leads from no depth back to none is balanced.
-/
import Mathlib.Data.List.Basic
import SwiftOutline.Proofs.Tree.WithoutTrivia

namespace SwiftOutline

namespace TokenKind

/-- Whether a token opens a parenthesis or a square bracket. -/
def opensGroup : TokenKind → Bool
  | lParen | lBracket => true
  | _ => false

/-- Whether a token closes a parenthesis or a square bracket. -/
def closesGroup : TokenKind → Bool
  | rParen | rBracket => true
  | _ => false

/-- How many more groups are opened than closed. -/
def excess (ks : List TokenKind) : Int := ks.countP opensGroup - ks.countP closesGroup

/-- No beginning of the sequence closes more groups than it opens, and the whole closes all. -/
structure Balanced (ks : List TokenKind) : Prop where
  never_negative : ∀ n, 0 ≤ excess (ks.take n)
  zero_at_end : excess ks = 0

theorem excess_cons (k : TokenKind) (ks : List TokenKind) :
    excess (k :: ks) = excess [k] + excess ks := by
  simp only [excess, List.countP_cons, List.countP_nil]
  omega

/-! ## Depth -/

/-- How many groups are open behind a token; `none` if it closes one and none is open. -/
def depthBehind? (depth : Nat) (k : TokenKind) : Option Nat :=
  if k.opensGroup then some (depth + 1)
  else if k.closesGroup then if depth = 0 then none else some (depth - 1)
  else some depth

theorem depthBehind?_open {k : TokenKind} (hk : k = .lParen ∨ k = .lBracket) (depth : Nat) :
    depthBehind? depth k = some (depth + 1) := by
  rcases hk with rfl | rfl <;> rfl

theorem depthBehind?_close {k : TokenKind} (hk : k = .rParen ∨ k = .rBracket) {depth : Nat}
    (h : depth ≠ 0) : depthBehind? depth k = some (depth - 1) := by
  rcases hk with rfl | rfl <;> simp [depthBehind?, opensGroup, closesGroup, h]

theorem depthBehind?_other {k : TokenKind} (ho : k.opensGroup = false) (hc : k.closesGroup = false)
    (depth : Nat) : depthBehind? depth k = some depth := by
  simp [depthBehind?, ho, hc]

theorem depthBehind?_plain {k : TokenKind} (hparen : k ≠ .lParen) (hbracket : k ≠ .lBracket)
    (hclose : k ≠ .rParen) (hclosing : k ≠ .rBracket) (depth : Nat) :
    depthBehind? depth k = some depth :=
  depthBehind?_other (by unfold opensGroup; split <;> simp_all)
    (by unfold closesGroup; split <;> simp_all) depth

theorem excess_of_depthBehind? {depth depth' : Nat} {k : TokenKind}
    (h : depthBehind? depth k = some depth') : (depth' : Int) = depth + excess [k] := by
  cases ho : k.opensGroup with
  | true =>
    have hc : k.closesGroup = false := by cases k <;> first | rfl | cases ho
    simp [depthBehind?, ho] at h
    simp [excess, ho, hc, ← h]
  | false =>
    cases hc : k.closesGroup with
    | true =>
      simp [depthBehind?, ho, hc] at h
      simp [excess, ho, hc]
      omega
    | false =>
      simp [depthBehind?, ho, hc] at h
      simp [excess, ho, hc, h]

/-- A sequence that leads from one depth to another never goes below zero in between. -/
theorem excess_of_foldlM {depth depth' : Nat} {ks : List TokenKind}
    (h : ks.foldlM depthBehind? depth = some depth') :
    (∀ n, 0 ≤ (depth : Int) + excess (ks.take n)) ∧ (depth : Int) + excess ks = depth' := by
  induction ks generalizing depth with
  | nil =>
    cases h
    simp [excess]
  | cons k ks ih =>
    rw [List.foldlM_cons] at h
    obtain ⟨next, hk, hks⟩ := Option.bind_eq_some_iff.mp h
    obtain ⟨hbefore, hend⟩ := ih hks
    have hnext := excess_of_depthBehind? hk
    refine ⟨fun n => ?_, ?_⟩
    · cases n with
      | zero => simp [excess]
      | succ n =>
        rw [List.take_succ_cons, excess_cons]
        have := hbefore n
        omega
    · rw [excess_cons]
      omega

theorem Balanced.of_foldlM {ks : List TokenKind} (h : ks.foldlM depthBehind? 0 = some 0) :
    Balanced ks where
  never_negative n := by simpa using (excess_of_foldlM h).1 n
  zero_at_end := by simpa using (excess_of_foldlM h).2

end TokenKind

namespace Tree

open TokenKind (depthBehind? depthBehind?_other)

/-! ## Tokens below a node -/

/-- Kind of a leaf; a node has none. -/
def tokenKind? : Tree → Option TokenKind
  | .leaf t => some t.kind
  | .node _ _ => none

/-- Kinds of the tokens among trees, from left to right. -/
def tokenKinds (ts : List Tree) : List TokenKind := ts.filterMap tokenKind?

theorem tokenKinds_cons (t : Tree) (ts : List Tree) :
    tokenKinds (t :: ts) = t.tokenKind?.toList ++ tokenKinds ts := by
  rw [tokenKinds, List.filterMap_cons]
  cases t.tokenKind? <;> rfl

theorem tokenKinds_append (ts us : List Tree) :
    tokenKinds (ts ++ us) = tokenKinds ts ++ tokenKinds us :=
  List.filterMap_append

/-- How many groups the tokens among trees leave open; `none` if they close more than is open. -/
def groupDepth? (ts : List Tree) : Option Nat := (tokenKinds ts).foldlM depthBehind? 0

/-- Whether a tree is something else than a token that opens or closes a group. -/
def IsApart (t : Tree) : Prop :=
  ∀ k, t.tokenKind? = some k → k.opensGroup = false ∧ k.closesGroup = false

theorem IsApart.node {k : NodeKind} {children : List Tree} : IsApart (.node k children) := nofun

/-- A token comes behind what has been there. -/
theorem groupDepth?_leaf {ts : List Tree} {depth : Nat} (h : groupDepth? ts = some depth)
    (t : Token) : groupDepth? (ts ++ [Tree.leaf t]) = depthBehind? depth t.kind := by
  rw [groupDepth?] at h
  rw [groupDepth?, tokenKinds_append, List.foldlM_append, h, Option.bind_eq_bind, Option.bind_some]
  exact bind_pure (depthBehind? depth t.kind)

/-- What neither opens nor closes anything leaves the depth as it is. -/
theorem foldlM_cons_of_isApart {t : Tree} (h : IsApart t) (ts : List Tree) (depth : Nat) :
    (tokenKinds (t :: ts)).foldlM depthBehind? depth =
      (tokenKinds ts).foldlM depthBehind? depth := by
  rw [tokenKinds_cons]
  cases ht : t.tokenKind? with
  | none => rfl
  | some k =>
    obtain ⟨ho, hc⟩ := h k ht
    rw [Option.toList_some, List.singleton_append, List.foldlM_cons, depthBehind?_other ho hc]
    rfl

theorem foldlM_of_isApart {us : List Tree} (h : ∀ u ∈ us, IsApart u) (depth : Nat) :
    (tokenKinds us).foldlM depthBehind? depth = some depth := by
  induction us with
  | nil => rfl
  | cons u us ih =>
    rw [foldlM_cons_of_isApart (h u List.mem_cons_self)]
    exact ih fun x hx => h x (List.mem_cons_of_mem u hx)

theorem groupDepth?_append {ts us : List Tree} (h : ∀ u ∈ us, IsApart u) :
    groupDepth? (ts ++ us) = groupDepth? ts := by
  rw [groupDepth?, tokenKinds_append, List.foldlM_append, ← groupDepth?]
  cases groupDepth? ts with
  | none => rfl
  | some depth => exact foldlM_of_isApart h depth

/-! ## Trivia -/

theorem isApart_of_isTriviaLeaf {t : Tree} (h : t.isTriviaLeaf = true) : IsApart t := by
  cases t with
  | node k children => exact .node
  | leaf t =>
    intro k hk
    obtain rfl := Option.some.inj hk
    have htrivia : t.kind.isTrivia = true := h
    revert htrivia
    cases t.kind <;> decide

theorem tokenKind?_withoutTrivia (t : Tree) : t.withoutTrivia.tokenKind? = t.tokenKind? := by
  cases t <;> rfl

/-- Trivia neither open nor close anything. -/
theorem foldlM_forestWithoutTrivia (ts : List Tree) (depth : Nat) :
    (tokenKinds (forestWithoutTrivia ts)).foldlM depthBehind? depth =
      (tokenKinds ts).foldlM depthBehind? depth := by
  induction ts generalizing depth with
  | nil => rfl
  | cons t ts ih =>
    rw [forestWithoutTrivia]
    split
    · next htrivia => rw [ih, foldlM_cons_of_isApart (isApart_of_isTriviaLeaf htrivia)]
    · rw [tokenKinds_cons, tokenKinds_cons, tokenKind?_withoutTrivia, List.foldlM_append,
        List.foldlM_append]
      exact bind_congr ih

theorem groupDepth?_forestWithoutTrivia (ts : List Tree) :
    groupDepth? (forestWithoutTrivia ts) = groupDepth? ts :=
  foldlM_forestWithoutTrivia ts 0

end Tree

end SwiftOutline
