/-
  SwiftOutline.Proofs.Parser.Everywhere

  Properties of all nodes that a program makes. Where a property of a node depends
  on its kind and its children alone, and only few kinds are concerned, all other
  nodes keep it; what the few are made of is told by what their programs add to
  the elements built before.
-/
import SwiftOutline.Proofs.Parser.Growth
import SwiftOutline.Proofs.Parser.Makes

namespace SwiftOutline

/-! ## Trees -/

/-- Every node of a tree has the property, which tells of its kind and its children. -/
inductive Tree.Everywhere (P : NodeKind → List Tree → Prop) : Tree → Prop where
  | leaf {t : Token} : Everywhere P (.leaf t)
  | node {k : NodeKind} {children : List Tree} (here : P k children)
      (inside : ∀ t ∈ children, Everywhere P t) : Everywhere P (.node k children)

namespace Tree

variable {P : NodeKind → List Tree → Prop} {t u : Tree}

theorem everywhere_node_iff {k : NodeKind} {children : List Tree} :
    Everywhere P (.node k children) ↔ P k children ∧ ∀ t ∈ children, t.Everywhere P :=
  ⟨fun | .node here inside => ⟨here, inside⟩, fun h => .node h.1 h.2⟩

theorem Everywhere.here {k : NodeKind} (h : t.Everywhere P) (hk : t.nodeKind? = some k) :
    P k t.children := by
  cases h with
  | leaf => exact nomatch hk
  | node here inside => exact Option.some.inj hk ▸ here

theorem Everywhere.of_mem_children (h : t.Everywhere P) (hu : u ∈ t.children) :
    u.Everywhere P := by
  cases h with
  | leaf => exact absurd hu List.not_mem_nil
  | node _ inside => exact inside u hu

end Tree

/-! ## States -/

namespace State

variable {P : NodeKind → List Tree → Prop} {Q : Tree → Prop} {s t u : State}

/-- All that has been built is such that `Q` holds of it. -/
def All (Q : Tree → Prop) (s : State) : Prop := ∀ x ∈ s.built, Q x

theorem All.start (h : s.All Q) (adopt : Bool) : (s.start adopt).All Q := by
  obtain ⟨before, hbuilt, -⟩ := s.exists_built_start adopt
  exact fun x hx => h x (hbuilt ▸ List.mem_append_left _ hx)

/-- A new node, made of what `Q` holds of. -/
theorem All.finish {adopt : Bool} {k? : Option NodeKind} (hs : s.All Q) (ht : t.All Q)
    (hk : ∀ k, k? = some k → Q (.node k t.built.reverse)) : (t.finish s adopt k?).All Q := by
  obtain ⟨before, hbuilt, hbefore⟩ := s.exists_built_start adopt
  have hbefores : ∀ x ∈ before, Q x := fun x hx => hs x (hbuilt ▸ List.mem_append_right _ hx)
  intro x hx
  simp only [State.finish, hbefore] at hx
  cases k? with
  | none => exact (List.mem_append.mp hx).elim (ht x) (hbefores x)
  | some k =>
    rcases List.mem_cons.mp hx with rfl | hx
    · exact hk k rfl
    · exact hbefores x hx

/-- A new node of which it is known that `Q` holds. -/
theorem All.node {k : NodeKind} (hs : s.All Q) (h : Q (.node k t.built.reverse)) :
    (t.finish s false (some k)).All Q :=
  fun x hx => (List.mem_cons.mp hx).elim (fun hx => hx ▸ h) (hs x)

theorem All.consume (hleaf : ∀ l, Q (.leaf l)) (h : s.All Q) : s.consume.All Q := by
  cases hend : s.view.atEnd with
  | true => rwa [consume_of_atEnd hend]
  | false =>
    obtain ⟨l, rest, -, -, hconsume⟩ := consume_of_not_atEnd hend
    rw [hconsume]
    exact fun x hx => (List.mem_cons.mp hx).elim (fun hx => hx ▸ hleaf l.token) (h x)

/-- What holds of tokens and of nodes of free kinds that are made of such, is kept. -/
def keepingAll (Q : Tree → Prop) (free : NodeKind → Prop) (hleaf : ∀ l, Q (.leaf l))
    (hfree : ∀ k ts, free k → (∀ x ∈ ts, Q x) → Q (.node k ts)) : Parser.Kept where
  rel s t := s.All Q → t.All Q
  free := free
  refl _ := id
  trans h h' := h' ∘ h
  consume _ := .consume hleaf
  complain _ _ := id
  finish h hk hs := hs.finish (h (hs.start _)) fun k hk' =>
    hfree k _ (hk k hk') fun x hx => h (hs.start _) x (List.mem_reverse.mp hx)
  withDirectives h := h

/-- All nodes that have been built have the property. -/
def Everywhere (P : NodeKind → List Tree → Prop) (s : State) : Prop := s.All (Tree.Everywhere P)

theorem Everywhere.start (h : s.Everywhere P) (adopt : Bool) : (s.start adopt).Everywhere P :=
  All.start h adopt

/-- A node that has the property itself, made of such that have it. -/
theorem Everywhere.finish {adopt : Bool} {k? : Option NodeKind} (hs : s.Everywhere P)
    (ht : t.Everywhere P) (hk : ∀ k, k? = some k → P k t.built.reverse) :
    (t.finish s adopt k?).Everywhere P :=
  All.finish hs ht fun k hk' => .node (hk k hk') fun x hx => ht x (List.mem_reverse.mp hx)

theorem Everywhere.consume (h : s.Everywhere P) : s.consume.Everywhere P :=
  All.consume (fun _ => .leaf) h

/-- All nodes keep a property that holds of nodes of free kinds anyway. -/
def keepingEverywhere (P : NodeKind → List Tree → Prop) (free : NodeKind → Prop)
    (hfree : ∀ k ts, free k → P k ts) : Parser.Kept :=
  { keepingAll (Tree.Everywhere P) free (fun _ => .leaf) fun k ts hk => .node (hfree k ts hk) with
    rel := fun s t => s.Everywhere P → t.Everywhere P }

/-! ### What is added -/

/-- All that has been built since is such that `Q` holds of it. -/
def Adds (Q : Tree → Prop) (s t : State) : Prop :=
  ∃ new, t.built = new ++ s.built ∧ ∀ x ∈ new, Q x

theorem Adds.of_built_eq (h : t.built = s.built) : s.Adds Q t := ⟨[], h, nofun⟩

theorem Adds.refl (s : State) : s.Adds Q s := .of_built_eq rfl

theorem Adds.trans (h : s.Adds Q t) (h' : t.Adds Q u) : s.Adds Q u := by
  obtain ⟨new, ht, hnew⟩ := h
  obtain ⟨new', hu, hnew'⟩ := h'
  refine ⟨new' ++ new, by rw [hu, ht, List.append_assoc], fun x hx => ?_⟩
  exact (List.mem_append.mp hx).elim (hnew' x) (hnew x)

theorem Adds.mono {R : Tree → Prop} (h : s.Adds Q t) (hR : ∀ x, Q x → R x) : s.Adds R t :=
  h.imp fun _ hnew => hnew.imp_right fun hnew x hx => hR x (hnew x hx)

/-- What has been built before is there still. -/
theorem Adds.mem_built {x : Tree} (h : s.Adds Q t) (hx : x ∈ s.built) : x ∈ t.built := by
  obtain ⟨new, ht, -⟩ := h
  exact ht ▸ List.mem_append_right new hx

/-- What a new node is made of, if it adopts nothing. -/
theorem Adds.forall_built (h : (s.start false).Adds Q t) : ∀ x ∈ t.built, Q x := by
  obtain ⟨new, ht, hnew⟩ := h
  rw [ht]
  exact fun x hx => (List.mem_append.mp hx).elim (hnew x) (absurd · List.not_mem_nil)

theorem adds_consume (hleaf : ∀ l, Q (.leaf l)) (s : State) : s.Adds Q s.consume := by
  cases hend : s.view.atEnd with
  | true => rw [consume_of_atEnd hend]; exact .refl s
  | false =>
    obtain ⟨l, rest, -, -, hconsume⟩ := consume_of_not_atEnd hend
    rw [hconsume]
    exact ⟨[.leaf l.token], rfl, by simp [hleaf]⟩

theorem adds_finish {k : NodeKind} (h : Q (.node k t.built.reverse)) :
    s.Adds Q (t.finish s false (some k)) :=
  ⟨[.node k t.built.reverse], rfl, by simp [h]⟩

/-- What programs do that make no nodes: they add tokens. -/
def adding (Q : Tree → Prop) (hleaf : ∀ l, Q (.leaf l)) : Parser.Kept where
  rel := Adds Q
  free _ := False
  refl := .refl
  trans := .trans
  consume := adds_consume hleaf
  complain _ _ := .of_built_eq rfl
  finish {s t adopt k?} h hk := by
    obtain ⟨new, ht, hnew⟩ := h
    obtain ⟨before, hs, hbefore⟩ := s.exists_built_start adopt
    cases k? with
    | some k => exact (hk k rfl).elim
    | none =>
      refine ⟨new, ?_, hnew⟩
      simp only [State.finish, hbefore]
      rw [ht, hs, List.append_assoc]
  withDirectives h := h

end State

/-! ## Programs -/

namespace Parser

variable {α β : Type} {Q : Tree → Prop} {call : Rule → State → Bool × State} {p : Parser α}
  {f : α → Parser β}

/-- Wherever it is run from, `p` adds nothing but elements of which `Q` holds. -/
def Adds (Q : Tree → Prop) (call : Rule → State → Bool × State) (p : Parser α) : Prop :=
  ∀ s : State, s.Adds Q (p.run call s).2

namespace Adds

theorem pure {a : α} : Adds Q call (Pure.pure a) := .refl

theorem view : Adds Q call view := .refl

theorem kind : Adds Q call kind := .refl

theorem sees {k : TokenKind} : Adds Q call (sees k) := .refl

theorem report {p : Problem} : Adds Q call (report p) := fun _ => .of_built_eq rfl

theorem bump (hleaf : ∀ l, Q (.leaf l)) : Adds Q call bump := State.adds_consume hleaf

theorem bind (hp : Adds Q call p) (hf : ∀ a, Adds Q call (f a)) : Adds Q call (p >>= f) := by
  intro s
  rw [run_bind]
  exact (hp s).trans (hf _ _)

theorem ite {c : Prop} [Decidable c] {q : Parser α} (hp : Adds Q call p) (hq : Adds Q call q) :
    Adds Q call (if c then p else q) := by
  split
  · exact hp
  · exact hq

/-- A node of which the property is known whatever it is made of. -/
theorem node {k : NodeKind} (h : ∀ ts, Q (.node k ts)) : Adds Q call (node k p) := by
  intro s
  rw [run_node]
  exact State.adds_finish (h _)

/-- A node of which the property depends on what it is made of. -/
theorem node_of {R : Tree → Prop} {k : NodeKind} (hp : Adds R call p)
    (h : ∀ ts, (∀ t ∈ ts, R t) → Q (.node k ts)) : Adds Q call (Parser.node k p) := by
  intro s
  rw [run_node]
  refine State.adds_finish (h _ fun t ht => ?_)
  exact (hp (s.start false)).forall_built t (List.mem_reverse.mp ht)

theorem roundsOf {body : Parser Bool} (h : Adds Q call body) (n : Nat) (s : State) :
    s.Adds Q (roundsOf (body.run call) n s) := by
  induction n generalizing s with
  | zero => exact .refl s
  | succ n ih =>
    rw [Parser.roundsOf]
    split
    · exact (h s).trans (ih _)
    · exact h s

theorem repeating {body : Parser Bool} (h : Adds Q call body) : Adds Q call (repeating body) := by
  intro s
  rw [run_repeating]
  exact h.roundsOf _ s

theorem inDirective (hp : Adds Q call p) : Adds Q call (inDirective p) :=
  fun s => hp (s.withDirectives _)

theorem bumpBalanced (hleaf : ∀ l, Q (.leaf l)) : Adds Q call bumpBalanced := by
  have hround : ∀ depth, Adds Q call (bumpInside depth) :=
    fun depth => .bind .view fun _ => .ite .pure (.bind (.bump hleaf) fun _ => .pure)
  intro s
  exact rel_runRounds (K := State.adding Q hleaf) hround _ 0 s

theorem recover (hset : ∀ ts, Q (.node .unexpected ts)) {p : Problem} :
    Adds Q call (recover p) := by
  exact .bind .report fun _ => .bind .view fun _ => .ite .pure (.node hset)

theorem eat (hleaf : ∀ l, Q (.leaf l)) {k : TokenKind} : Adds Q call (eat k) :=
  .bind .sees fun _ => .ite (.bind (.bump hleaf) fun _ => .pure) .pure

theorem require (hleaf : ∀ l, Q (.leaf l)) {k : TokenKind} {p : Problem} :
    Adds Q call (require k p) := by
  refine .bind (.bind (.eat hleaf) fun _ => ?_) fun _ => .pure
  exact .ite .pure (.bind .report fun _ => .pure)

end Adds

end Parser

end SwiftOutline
