/-
  SwiftOutline.Proofs.Outline.Ahead

  What stands in a file ahead of an element. Neither the first token of a node nor
  the marks behind it nor the types around it depend on that, so a declaration is
  read in the same way whatever else the file begins with.
-/
import SwiftOutline.Proofs.Outline.Sameness
import SwiftOutline.Proofs.Tree.Neighbors
import SwiftOutline.Proofs.Tree.TriviaPlacement
import SwiftOutline.Proofs.TypeShape.Apart

namespace SwiftOutline

namespace Cursor

variable {c d e x y : Cursor}

/-! ## First and last tokens of tidy nodes -/

mutual

theorem contains_of_firstTokenOf (t : Tree) {start : Nat} {above : List Frame}
    (h : firstTokenOf t start above = some x) :
    start ≤ x.start ∧ x.start + x.tree.size ≤ start + t.size := by
  cases t with
  | leaf u =>
    obtain rfl := Option.some.inj h
    exact ⟨Nat.le_refl _, Nat.le_refl _⟩
  | node k children => exact contains_of_firstTokenOfForest children h

theorem contains_of_firstTokenOfForest (ts : List Tree) {k : NodeKind} {start : Nat}
    {above : List Frame} (h : firstTokenOfForest k start above ts = some x) :
    start ≤ x.start ∧ x.start + x.tree.size ≤ start + Tree.forestSize ts := by
  cases ts with
  | nil => exact nomatch h
  | cons t ts =>
    have hfirst := contains_of_firstTokenOf t h
    rw [Tree.forestSize]
    omega

end

mutual

theorem contains_of_lastTokenOf (t : Tree) {start : Nat} {above : List Frame}
    (h : lastTokenOf t start above = some x) :
    start ≤ x.start ∧ x.start + x.tree.size ≤ start + t.size := by
  cases t with
  | leaf u =>
    obtain rfl := Option.some.inj h
    exact ⟨Nat.le_refl _, Nat.le_refl _⟩
  | node k children => exact contains_of_lastTokenOfForest children h

theorem contains_of_lastTokenOfForest (ts : List Tree) {k : NodeKind} {start offset : Nat}
    {above : List Frame} {before : List Tree}
    (h : lastTokenOfForest k start above before offset ts = some x) :
    offset ≤ x.start ∧ x.start + x.tree.size ≤ offset + Tree.forestSize ts := by
  match ts, h with
  | [t], h =>
    have hlast := contains_of_lastTokenOf t h
    rw [Tree.forestSize]
    omega
  | t :: t' :: ts, h =>
    have hlast := contains_of_lastTokenOfForest (t' :: ts) h
    rw [Tree.forestSize]
    omega

end

theorem contains_span (hstart : c.start ≤ x.start)
    (hstop : x.start + x.tree.size ≤ c.start + c.tree.size) : c.span.contains x.span = true := by
  simp [Span.contains, span, hstart, hstop]

mutual

theorem isSignificant_of_lastTokenOf (t : Tree) {start : Nat} {above : List Frame} (ht : t.Tidy)
    (hleaf : t.isTriviaLeaf = false) (h : lastTokenOf t start above = some x) :
    x.isSignificant = true := by
  cases t with
  | leaf u =>
    obtain rfl := Option.some.inj h
    have hu : u.isTrivia = false := hleaf
    have hx : IsAt ⟨.leaf u, start, above⟩ u := rfl
    rw [isSignificant_of_isAt hx, hu]
    rfl
  | node k children =>
    cases ht with
    | node _ last inside => exact isSignificant_of_lastTokenOfForest children inside last h

theorem isSignificant_of_lastTokenOfForest (ts : List Tree) {k : NodeKind} {start offset : Nat}
    {above : List Frame} {before : List Tree} (hts : ∀ t ∈ ts, t.Tidy)
    (hlast : ts.getLast?.all (fun t => !t.isTriviaLeaf) = true)
    (h : lastTokenOfForest k start above before offset ts = some x) :
    x.isSignificant = true := by
  match ts, h with
  | [t], h =>
    exact isSignificant_of_lastTokenOf t (hts t List.mem_cons_self) (by simpa using hlast) h
  | t :: t' :: ts, h =>
    exact isSignificant_of_lastTokenOfForest (t' :: ts)
      (fun u hu => hts u (List.mem_cons_of_mem _ hu)) (by simpa using hlast) h

end

/-- A search that begins at a token that is no trivia ends there. -/
theorem seek_of_isSignificant {step : Cursor → Option Cursor} {n : Nat}
    (hx : x.isSignificant = true) (hn : 0 < n) : seek step n x = some x := by
  cases n with
  | zero => exact absurd hn (Nat.lt_irrefl 0)
  | succ n => rw [seek, if_pos hx]

theorem tokenTotal_pos {u : Token} (h : u ∈ c.tree.leaves) : 0 < c.tokenTotal := by
  have hpos := List.length_pos_of_mem h
  rw [tokenTotal]
  omega

/-- The first token of a tidy node is no trivia. -/
theorem firstSignificant?_eq (h : c.tree.Tidy) (hc : c.tree.nodeKind?.isSome = true) :
    c.firstSignificant? = c.firstToken? := by
  cases hx : c.firstToken? with
  | none => rw [firstSignificant?, hx]; rfl
  | some x =>
    obtain ⟨u, rest, hu, hleaves, -⟩ := exists_of_firstTokenOf _ _ _ hx
    obtain ⟨hstart, hstop⟩ := contains_of_firstTokenOf _ hx
    have hsignificant : x.isSignificant = true := by
      rw [isSignificant_of_isAt hu]
      cases htree : c.tree with
      | leaf t => rw [htree] at hc; exact nomatch hc
      | node k children =>
        rw [htree] at h
        rw [htree, Tree.leaves] at hleaves
        cases h with
        | node first _ _ => simpa [hleaves] using first
    have hpos : 0 < c.tokenTotal := tokenTotal_pos (by rw [hleaves]; exact List.mem_cons_self)
    rw [firstSignificant?, hx, Option.bind_some, seek_of_isSignificant hsignificant hpos,
      Option.filter_some, if_pos (contains_span hstart hstop)]

/-- So is its last token. -/
theorem lastSignificant?_eq (h : c.tree.Tidy) (hc : c.tree.nodeKind?.isSome = true) :
    c.lastSignificant? = c.lastToken? := by
  cases hx : c.lastToken? with
  | none => rw [lastSignificant?, hx]; rfl
  | some x =>
    obtain ⟨u, front, hu, hleaves, -⟩ := exists_of_lastTokenOf _ _ _ hx
    obtain ⟨hstart, hstop⟩ := contains_of_lastTokenOf _ hx
    have hleaf : c.tree.isTriviaLeaf = false := by
      cases htree : c.tree with
      | leaf t => rw [htree] at hc; exact nomatch hc
      | node k children => rfl
    have hpos : 0 < c.tokenTotal :=
      tokenTotal_pos (by rw [hleaves]; exact List.mem_append_right _ List.mem_cons_self)
    rw [lastSignificant?, hx, Option.bind_some,
      seek_of_isSignificant (isSignificant_of_lastTokenOf _ h hleaf hx) hpos,
      Option.filter_some, if_pos (contains_span hstart hstop)]

/-! ## Going on from a token -/

/-- Elements with the same tree and the same siblings behind them and behind all that they stand
    in. -/
structure Onward (c d : Cursor) : Prop where
  tree : c.tree = d.tree
  above : List.Forall₂ (fun f g => f.after = g.after) c.above d.above

theorem onward_elementAfter {t u : Tree} {start start' : Nat} {fs gs : List Frame}
    (h : List.Forall₂ (fun f g : Frame => f.after = g.after) fs gs) :
    Option.Rel Onward (elementAfter t start fs) (elementAfter u start' gs) := by
  induction h generalizing t u start start' with
  | nil => exact .none
  | @cons f g fs gs hafter hrest ih =>
    rw [elementAfter, elementAfter, hafter]
    split
    · exact .some ⟨rfl, .cons rfl hrest⟩
    · exact ih

mutual

theorem onward_firstTokenOf (t : Tree) {start start' : Nat} {fs gs : List Frame}
    (h : List.Forall₂ (fun f g : Frame => f.after = g.after) fs gs) :
    Option.Rel Onward (firstTokenOf t start fs) (firstTokenOf t start' gs) := by
  cases t with
  | leaf u => exact .some ⟨rfl, h⟩
  | node k children => exact onward_firstTokenOfForest children h

theorem onward_firstTokenOfForest (ts : List Tree) {k k' : NodeKind} {start start' : Nat}
    {fs gs : List Frame} (h : List.Forall₂ (fun f g : Frame => f.after = g.after) fs gs) :
    Option.Rel Onward (firstTokenOfForest k start fs ts) (firstTokenOfForest k' start' gs ts) := by
  cases ts with
  | nil => exact .none
  | cons t ts => exact onward_firstTokenOf t (.cons rfl h)

end

mutual

theorem onward_lastTokenOf (t : Tree) {start start' : Nat} {fs gs : List Frame}
    (h : List.Forall₂ (fun f g : Frame => f.after = g.after) fs gs) :
    Option.Rel Onward (lastTokenOf t start fs) (lastTokenOf t start' gs) := by
  cases t with
  | leaf u => exact .some ⟨rfl, h⟩
  | node k children => exact onward_lastTokenOfForest children h

theorem onward_lastTokenOfForest (ts : List Tree) {k k' : NodeKind} {start start' : Nat}
    {fs gs : List Frame} {before before' : List Tree} {offset offset' : Nat}
    (h : List.Forall₂ (fun f g : Frame => f.after = g.after) fs gs) :
    Option.Rel Onward (lastTokenOfForest k start fs before offset ts)
      (lastTokenOfForest k' start' gs before' offset' ts) := by
  match ts with
  | [] => exact .none
  | [t] => exact onward_lastTokenOf t (.cons rfl h)
  | t :: t' :: ts => exact onward_lastTokenOfForest (t' :: ts) h

end

theorem Onward.firstToken? (h : Onward c d) : Option.Rel Onward c.firstToken? d.firstToken? := by
  rw [Cursor.firstToken?, Cursor.firstToken?, h.tree]
  exact onward_firstTokenOf _ h.above

theorem Onward.lastToken? (h : Onward c d) : Option.Rel Onward c.lastToken? d.lastToken? := by
  rw [Cursor.lastToken?, Cursor.lastToken?, h.tree]
  exact onward_lastTokenOf _ h.above

theorem Onward.nextToken? (h : Onward c d) : Option.Rel Onward c.nextToken? d.nextToken? :=
  rel_bind (onward_elementAfter h.above) fun _ _ h => h.firstToken?

theorem Onward.seek (h : Onward c d) (n : Nat) :
    Option.Rel Onward (seek Cursor.nextToken? n c) (seek Cursor.nextToken? n d) := by
  induction n generalizing c d with
  | zero => exact .none
  | succ n ih =>
    have hsignificant : c.isSignificant = d.isSignificant := by
      rw [isSignificant, isSignificant, token?, token?, h.tree]
    rw [Cursor.seek, Cursor.seek, hsignificant]
    split
    · exact .some h
    · exact rel_bind h.nextToken? fun _ _ h => ih h

/-- Steps enough are as good as any more. -/
theorem seek_nextToken?_congr {n m : Nat} (hn : c.behind.length < n) (hm : c.behind.length < m) :
    seek Cursor.nextToken? n c = seek Cursor.nextToken? m c := by
  induction n generalizing c m with
  | zero => exact absurd hn (Nat.not_lt_zero _)
  | succ n ih =>
    obtain ⟨m, rfl⟩ : ∃ k, m = k + 1 := ⟨m - 1, by omega⟩
    rw [Cursor.seek, Cursor.seek]
    split
    · rfl
    · cases hd : c.nextToken? with
      | none => rfl
      | some d =>
        obtain ⟨u, -, hbehind⟩ := exists_of_nextToken? hd
        rw [hbehind, List.length_cons] at hn hm
        exact ih (by omega) (by omega)

theorem length_tokensBehind_le (fs : List Frame) : (tokensBehind fs).length ≤ tokensBeside fs := by
  induction fs with
  | nil => exact Nat.le_refl _
  | cons f fs ih =>
    rw [tokensBehind, tokensBeside, List.length_append]
    omega

/-- The next token that is no trivia does not depend on what stands before the element. -/
theorem Onward.nextSignificant? (h : Onward c d) :
    Option.Rel Onward c.nextSignificant? d.nextSignificant? := by
  have henough : ∀ c : Cursor, ∀ n ≥ c.tokenTotal, c.nextSignificant? =
      c.nextToken?.bind (Cursor.seek Cursor.nextToken? n) := by
    intro c n hn
    rw [Cursor.nextSignificant?]
    cases hd : c.nextToken? with
    | none => rfl
    | some d =>
      obtain ⟨u, -, hbehind⟩ := exists_of_nextToken? hd
      have hlength := length_tokensBehind_le c.above
      have hcount := congrArg List.length hbehind
      rw [behind, List.length_cons] at hcount
      rw [tokenTotal] at hn ⊢
      exact seek_nextToken?_congr (by omega) (by omega)
  rw [henough c _ (Nat.le_max_left c.tokenTotal d.tokenTotal),
    henough d _ (Nat.le_max_right c.tokenTotal d.tokenTotal)]
  exact rel_bind h.nextToken? fun _ _ h => h.seek _

/-- The mark behind a tidy node does not depend on what stands before it. -/
theorem Onward.isMarkedOptional (h : Onward c d) (htidy : c.tree.Tidy)
    (hc : c.tree.nodeKind?.isSome = true) :
    TypeShape.isMarkedOptional c = TypeShape.isMarkedOptional d := by
  have hnext := rel_bind h.lastToken? fun _ _ h => h.nextSignificant?
  rw [TypeShape.isMarkedOptional, TypeShape.isMarkedOptional, lastSignificant?_eq htidy hc,
    lastSignificant?_eq (h.tree ▸ htidy) (h.tree ▸ hc)]
  obtain ⟨hc, hd⟩ | ⟨x, y, hx, hy, hxy⟩ := rel_cases hnext
  · rw [hc, hd]
  · rw [hx, hy, Option.any_some, Option.any_some, isToken, isToken, isToken, isToken, token?,
      token?, hxy.tree]

end Cursor

/-! ## Elements of files with different beginnings -/

/-- Surroundings up to the root of a file that differ at most in what the file begins with. -/
inductive Frame.Alike : List Frame → List Frame → Prop
  | root {f g : Frame} (hf : f.kind = .sourceFile) (hg : g.kind = .sourceFile)
      (after : f.after = g.after) : Alike [f] [g]
  | inner {f g : Frame} {fs gs : List Frame} (kind : f.kind = g.kind) (before : f.before = g.before)
      (after : f.after = g.after) (above : Alike fs gs) : Alike (f :: fs) (g :: gs)

namespace Frame.Alike

variable {fs gs : List Frame}

theorem after (h : Alike fs gs) : List.Forall₂ (fun f g : Frame => f.after = g.after) fs gs := by
  induction h with
  | root _ _ after => exact .cons after .nil
  | inner _ _ after _ ih => exact .cons after ih

theorem all_kind (h : Alike fs gs) (p : NodeKind → Bool) :
    (fs.all fun f => p f.kind) = gs.all fun g => p g.kind := by
  induction h with
  | root hf hg _ => rw [List.all_cons, List.all_cons, hf, hg, List.all_nil]
  | inner kind _ _ _ ih => rw [List.all_cons, List.all_cons, kind, ih]

end Frame.Alike

namespace Cursor

variable {c d : Cursor}

/-- Elements that are the same in two files that begin differently. -/
structure Alike (c d : Cursor) : Prop where
  tree : c.tree = d.tree
  above : Frame.Alike c.above d.above

theorem Alike.onward (h : Alike c d) : Onward c d := ⟨h.tree, h.above.after⟩

theorem alike_childrenFrom {k : NodeKind} {fs gs : List Frame} (h : Frame.Alike fs gs)
    (start start' : Nat) (before : List Tree) (offset offset' : Nat) (ts : List Tree) :
    List.Forall₂ Alike (childrenFrom k start fs before offset ts)
      (childrenFrom k start' gs before offset' ts) := by
  induction ts generalizing before offset offset' with
  | nil => exact .nil
  | cons t ts ih => exact .cons ⟨rfl, .inner rfl rfl rfl h⟩ (ih _ _ _)

theorem Alike.elements (h : Alike c d) : List.Forall₂ Alike c.elements d.elements := by
  obtain ⟨t, start, fs⟩ := c
  obtain ⟨u, start', gs⟩ := d
  obtain ⟨rfl, habove⟩ := h
  cases t with
  | leaf t => exact .nil
  | node k children => exact alike_childrenFrom habove _ _ _ _ _ _

theorem mirrors_alike : Mirrors Alike where
  tree h := h.tree
  elements h := h.elements
  surroundedIn h m := h.above.all_kind m.shows

/-- The nodes around an element make a function type in it optional or escaping, and the root is
    none of them. -/
theorem wrapping_ancestorsOf {fs gs : List Frame} (h : Frame.Alike fs gs) (t : Tree) :
    TypeShape.wrapping (ancestorsOf t fs) = TypeShape.wrapping (ancestorsOf t gs) := by
  have hroot : ∀ (f : Frame) (u : Tree), f.kind = .sourceFile →
      TypeShape.wrapping (ancestorsOf u [f]) = (false, false) := by
    intro f u hf
    exact TypeShape.wrapping_cons (a := ⟨f.parent u, f.start, []⟩) (congrArg some hf) (by decide) _
  induction h generalizing t with
  | root hf hg _ => rw [hroot _ _ hf, hroot _ _ hg]
  | @inner f g fs gs kind before after above ih =>
    have htree : f.parent t = g.parent t := by rw [Frame.parent, Frame.parent, kind, before, after]
    have halike : Alike ⟨f.parent t, f.start, fs⟩ ⟨g.parent t, g.start, gs⟩ := ⟨htree, above⟩
    have hcount : (TypeShape.tupleElements ⟨f.parent t, f.start, fs⟩).length =
        (TypeShape.tupleElements ⟨g.parent t, g.start, gs⟩).length :=
      (forall₂_filter (mirrors_alike.children halike)
        fun _ _ h => mirrors_alike.isKind h .tupleTypeElement).length_eq
    have hattributes := Attribute.allIn_mirror (m := .sourceAccurate) mirrors_alike halike
    rw [ancestorsOf, ancestorsOf, TypeShape.wrapping, TypeShape.wrapping, hattributes, hcount,
      htree, ih]

/-- The same of tidy elements: all that an outline reads agrees. -/
structure Twin (c d : Cursor) : Prop extends Alike c d where
  tidy : c.tree.Tidy

theorem agrees_twin : Agrees Twin where
  tree h := h.tree
  elements {c d} h := by
    have hmem : List.Forall₂ (fun a b => a ∈ c.elements ∧ Alike a b) c.elements d.elements :=
      (List.forall₂_and_left _ _).mpr ⟨fun _ ha => ha, h.toAlike.elements⟩
    exact hmem.imp fun a b hab => ⟨hab.2, h.tidy.of_mem_children (tree_mem_children hab.1)⟩
  surroundedIn h := mirrors_alike.surroundedIn h.toAlike
  first {c d} h hc := by
    rw [firstSignificant?_eq h.tidy hc, firstSignificant?_eq (h.tree ▸ h.tidy) (h.tree ▸ hc)]
    exact rel_map_congr h.onward.firstToken? fun _ _ h => h.tree
  marked h hc := h.onward.isMarkedOptional h.tidy hc
  wrapping {c d} h := by
    rw [ancestors, ancestors, h.tree]
    exact wrapping_ancestorsOf h.above _

end Cursor

end SwiftOutline
