/-
  SwiftOutline.Proofs.Events.Records

  Which trees a stream of events records. A node is recorded together with the
  nodes that were put around it when it was complete: first its own events, then,
  level by level, what stands in the next node behind it. Every start but that of
  the outermost node tells where the next start is.
-/
import Mathlib.Logic.Relation
import SwiftOutline.Grammar.Event

namespace SwiftOutline

namespace Event

variable {es es' inside : List Event} {ts us : List Tree} {k : NodeKind}
  {ls : List (NodeKind × List Event)} {lts : List (NodeKind × List Tree)} {i j : Nat}

/-! ## Nodes around nodes -/

/-- The events of a `k` node and of the nodes around it. -/
def chain (k : NodeKind) (inside : List Event) : List (NodeKind × List Event) → List Event
  | [] => .start k none :: inside ++ [.finish]
  | l :: ls => .start k (some (inside.length + 2)) :: inside ++ .finish :: chain l.1 l.2 ls

/-- How far behind the start of the innermost node that of the outermost stands. -/
def outermost (inside : List Event) : List (NodeKind × List Event) → Nat
  | [] => 0
  | l :: ls => inside.length + 2 + outermost l.2 ls

/-- A tree in nodes that lie around it, the innermost first: each has what lies inside of it as its
    first child. The other children stand in reverse. -/
def around (t : Tree) (lts : List (NodeKind × List Tree)) : Tree :=
  lts.foldl (fun t l => .node l.1 (t :: l.2.reverse)) t

mutual

/-- The events record the trees, the newest of which comes first. -/
inductive Records : List Event → List Tree → Prop
  | nil : Records [] []
  | token (t : Token) {es : List Event} {ts : List Tree} :
    Records es ts → Records (es ++ [.token t.kind]) (.leaf t :: ts)
  | placeholder {es : List Event} {ts : List Tree} :
    Records es ts → Records (es ++ [.placeholder]) ts
  | node (k : NodeKind) {es inside : List Event} {ts us : List Tree}
    {ls : List (NodeKind × List Event)} {lts : List (NodeKind × List Tree)} :
    Records es ts → Records inside us → Layers ls lts →
      Records (es ++ chain k inside ls) (around (.node k us.reverse) lts :: ts)

/-- The same for what stands in each of several nodes. -/
inductive Layers : List (NodeKind × List Event) → List (NodeKind × List Tree) → Prop
  | nil : Layers [] []
  | cons (k : NodeKind) {inside : List Event} {us : List Tree}
    {ls : List (NodeKind × List Event)} {lts : List (NodeKind × List Tree)} :
    Records inside us → Layers ls lts → Layers ((k, inside) :: ls) ((k, us) :: lts)

end

theorem Records.append (h : Records es ts) : ∀ {es' : List Event} {us : List Tree},
    Records es' us → Records (es ++ es') (us ++ ts)
  | _, _, .nil => by simpa using h
  | _, _, .token t h' => by
    rw [← List.append_assoc]
    exact .token t (h.append h')
  | _, _, .placeholder h' => by
    rw [← List.append_assoc]
    exact .placeholder (h.append h')
  | _, _, .node k h' hi hl => by
    rw [← List.append_assoc]
    exact .node k (h.append h') hi hl

theorem chain_ne_nil (k : NodeKind) (inside : List Event) (ls : List (NodeKind × List Event)) :
    chain k inside ls ≠ [] := by
  cases ls <;> simp [chain]

/-- No events record no trees. -/
theorem Records.eq_nil_of_nil (h : Records [] us) : us = [] := by
  generalize hes : ([] : List Event) = es at h
  cases h with
  | nil => rfl
  | token t h => simp at hes
  | placeholder h => simp at hes
  | node k h hi hl =>
    rw [eq_comm, List.append_eq_nil_iff] at hes
    exact absurd hes.2 (chain_ne_nil _ _ _)

theorem Layers.concat (hi : Records inside us) (k : NodeKind) :
    ∀ {ls : List (NodeKind × List Event)} {lts : List (NodeKind × List Tree)},
      Layers ls lts → Layers (ls ++ [(k, inside)]) (lts ++ [(k, us)])
  | _, _, .nil => .cons k hi .nil
  | _, _, .cons k' h' hl => .cons k' h' (hl.concat hi k)

theorem Layers.map_fst : ∀ {ls : List (NodeKind × List Event)} {lts : List (NodeKind × List Tree)},
    Layers ls lts → ls.map Prod.fst = lts.map Prod.fst
  | _, _, .nil => rfl
  | _, _, .cons _ _ hl => congrArg _ hl.map_fst

/-! ## Putting a node around another -/

/-- What stands around the start of the outermost node, and what changes when another is put around
    it. -/
theorem exists_chain_eq (k : NodeKind) (inside : List Event) (ls : List (NodeKind × List Event)) :
    ∃ (inner : List Event) (k' : NodeKind) (after : List Event),
      inner.length = outermost inside ls ∧
      chain k inside ls = inner ++ Event.start k' none :: after ∧
      ∀ l, chain k inside (ls ++ [l]) = inner ++ Event.start k' (some (after.length + 1)) ::
        (after ++ Event.start l.1 none :: (l.2 ++ [Event.finish])) := by
  induction ls generalizing k inside with
  | nil =>
    refine ⟨[], k, inside ++ [Event.finish], rfl, rfl, fun l => ?_⟩
    simp [chain]
  | cons l ls ih =>
    obtain ⟨inner, k', after, hlength, hchain, hconcat⟩ := ih l.1 l.2
    refine ⟨.start k (some (inside.length + 2)) :: (inside ++ .finish :: inner), k', after, ?_, ?_,
      fun l' => ?_⟩
    · simp only [List.length_cons, List.length_append, hlength, outermost]
      omega
    · simp only [chain, hchain, List.cons_append, List.append_assoc]
    · simp only [chain, hconcat, List.cons_append, List.append_assoc]

theorem outermost_concat (k : NodeKind) (inside : List Event) (ls : List (NodeKind × List Event))
    (l : NodeKind × List Event) : outermost inside (ls ++ [l]) = (chain k inside ls).length := by
  induction ls generalizing k inside with
  | nil => simp [outermost, chain]
  | cons l' ls ih =>
    simp only [List.cons_append, outermost, ih l'.1, chain, List.length_append, List.length_cons]
    omega

theorem around_concat (t : Tree) (lts : List (NodeKind × List Tree)) (k : NodeKind)
    (us : List Tree) : around t (lts ++ [(k, us)]) = .node k (around t lts :: us.reverse) := by
  rw [around, List.foldl_append]
  rfl

/-! ## Links -/

/-- The start at `i` tells that the one around it stands at `j`. -/
def Points (events : List Event) (i j : Nat) : Prop :=
  ∃ k d, events[i]? = some (.start k (some d)) ∧ j = i + d

/-- A start stands at `i`. -/
def StartsAt (events : List Event) (i : Nat) : Prop :=
  ∃ k parent?, events[i]? = some (.start k parent?)

/-- All links lead forward to starts, and no two lead to the same. -/
structure Sound (events : List Event) : Prop where
  forward : ∀ {i j : Nat}, Points events i j → i < j
  startsAt : ∀ {i j : Nat}, Points events i j → StartsAt events j
  apart : ∀ {i i' j : Nat}, Points events i j → Points events i' j → i = i'

theorem Points.lt_length (h : Points es i j) : i < es.length := by
  obtain ⟨k, d, hi, -⟩ := h
  exact (List.getElem?_eq_some_iff.mp hi).1

theorem StartsAt.lt_length (h : StartsAt es i) : i < es.length := by
  obtain ⟨k, d, hi⟩ := h
  exact (List.getElem?_eq_some_iff.mp hi).1

theorem points_append (h : Points (es ++ es') i j) :
    Points es i j ∨ es.length ≤ i ∧ ∃ j', j = es.length + j' ∧ Points es' (i - es.length) j' := by
  obtain ⟨k, d, hi, rfl⟩ := h
  by_cases hlt : i < es.length
  · rw [List.getElem?_append_left hlt] at hi
    exact .inl ⟨k, d, hi, rfl⟩
  · rw [List.getElem?_append_right (by omega)] at hi
    exact .inr ⟨by omega, i - es.length + d, by omega, k, d, hi, rfl⟩

theorem StartsAt.append (h : StartsAt es i) : StartsAt (es ++ es') i := by
  obtain ⟨k, parent?, hi⟩ := h
  exact ⟨k, parent?, by rw [List.getElem?_append_left (List.getElem?_eq_some_iff.mp hi).1, hi]⟩

theorem StartsAt.prepend (h : StartsAt es' i) : StartsAt (es ++ es') (es.length + i) := by
  obtain ⟨k, parent?, hi⟩ := h
  exact ⟨k, parent?, by rw [List.getElem?_append_right (by omega), Nat.add_sub_cancel_left, hi]⟩

theorem Sound.append (h : Sound es) (h' : Sound es') : Sound (es ++ es') where
  forward hp := by
    rcases points_append hp with hpes | ⟨hi, j', hj, hpes⟩
    · exact h.forward hpes
    · have := h'.forward hpes
      omega
  startsAt hp := by
    rcases points_append hp with hpes | ⟨hi, j', hj, hpes⟩
    · exact (h.startsAt hpes).append
    · exact hj ▸ (h'.startsAt hpes).prepend
  apart hp hq := by
    rcases points_append hp with hpes | ⟨hi, j', hj, hpes⟩ <;>
      rcases points_append hq with hqes | ⟨hi', j'', hj', hqes⟩
    · exact h.apart hpes hqes
    · have := (h.startsAt hpes).lt_length
      omega
    · have := (h.startsAt hqes).lt_length
      omega
    · obtain rfl : j'' = j' := by omega
      have := h'.apart hpes hqes
      omega

theorem Sound.nil : Sound [] where
  forward hp := absurd hp.lt_length (by simp)
  startsAt hp := absurd hp.lt_length (by simp)
  apart hp := absurd hp.lt_length (by simp)

/-- An event that is no link may stand anywhere. -/
theorem Sound.single {e : Event} (h : ∀ k d, e ≠ .start k (some d)) : Sound [e] := by
  have hnone : ∀ i j, ¬ Points [e] i j := by
    rintro i j ⟨k, d, hi, -⟩
    obtain ⟨-, he⟩ : i = 0 ∧ e = .start k (some d) := by simpa [List.getElem?_singleton] using hi
    exact h k d he
  exact ⟨fun hp => absurd hp (hnone _ _), fun hp => absurd hp (hnone _ _),
    fun hp => absurd hp (hnone _ _)⟩

/-- A link may lead over events to the start behind them. -/
theorem Sound.link (k : NodeKind) (h : Sound es) (h' : Sound es') (hstart : StartsAt es' 0) :
    Sound (.start k (some (es.length + 1)) :: (es ++ es')) := by
  have hboth := h.append h'
  have hcases : ∀ {i j : Nat}, Points (.start k (some (es.length + 1)) :: (es ++ es')) i j →
      i = 0 ∧ j = es.length + 1 ∨ ∃ i' j', i = i' + 1 ∧ j = j' + 1 ∧ Points (es ++ es') i' j' := by
    rintro i j ⟨k', d, hi, rfl⟩
    cases i with
    | zero =>
      simp only [List.getElem?_cons_zero, Option.some.injEq, Event.start.injEq] at hi
      exact .inl ⟨rfl, by omega⟩
    | succ i => exact .inr ⟨i, i + d, rfl, by omega, k', d, by simpa using hi, rfl⟩
  -- what stands in front of the start does not lead there, and what stands behind leads forward
  have hfree : ∀ i, ¬ Points (es ++ es') i es.length := by
    intro i hp
    rcases points_append hp with hpes | ⟨hi, j', hj, hpes⟩
    · exact absurd (h.startsAt hpes).lt_length (by omega)
    · have := h'.forward hpes
      omega
  have hstep : ∀ {i}, StartsAt (es ++ es') i →
      StartsAt (.start k (some (es.length + 1)) :: (es ++ es')) (i + 1) := by
    rintro i ⟨k', parent?, hi⟩
    exact ⟨k', parent?, by simpa using hi⟩
  refine ⟨fun hp => ?_, fun hp => ?_, fun hp hq => ?_⟩
  · rcases hcases hp with ⟨hi, hj⟩ | ⟨i', j', hi, hj, hpes⟩
    · omega
    · have := hboth.forward hpes
      omega
  · rcases hcases hp with ⟨hi, hj⟩ | ⟨i', j', hi, hj, hpes⟩
    · exact hj ▸ hstep hstart.prepend
    · exact hj ▸ hstep (hboth.startsAt hpes)
  · rcases hcases hp with ⟨hi, hj⟩ | ⟨i', j', hi, hj, hpes⟩ <;>
      rcases hcases hq with ⟨hi', hj'⟩ | ⟨i'', j'', hi', hj', hqes⟩
    · omega
    · obtain rfl : j'' = es.length := by omega
      exact absurd hqes (hfree _)
    · obtain rfl : j' = es.length := by omega
      exact absurd hpes (hfree _)
    · obtain rfl : j'' = j' := by omega
      have := hboth.apart hpes hqes
      omega

theorem Sound.chain (k : NodeKind) (hi : Sound inside) (hls : ∀ l ∈ ls, Sound l.2) :
    Sound (chain k inside ls) := by
  have hfinish : Sound [.finish] := .single (by simp)
  induction ls generalizing k inside with
  | nil => exact (Sound.single (by simp)).append (hi.append hfinish)
  | cons l ls ih =>
    have hrest : Sound (Event.chain l.1 l.2 ls) :=
      ih l.1 (hls l List.mem_cons_self) fun l' hl' => hls l' (List.mem_cons_of_mem _ hl')
    have hstart : StartsAt (Event.chain l.1 l.2 ls) 0 := by
      cases ls with
      | nil => exact ⟨l.1, none, rfl⟩
      | cons l' ls => exact ⟨l.1, _, rfl⟩
    have hlink := Sound.link k (hi.append hfinish) hrest hstart
    simpa [Event.chain] using hlink

mutual

/-- The links of a stream that records trees are sound. -/
theorem Records.sound : ∀ {es : List Event} {ts : List Tree}, Records es ts → Sound es
  | _, _, .nil => .nil
  | _, _, .token t h => h.sound.append (.single (by simp))
  | _, _, .placeholder h => h.sound.append (.single (by simp))
  | _, _, .node k h hi hl => h.sound.append (.chain k hi.sound hl.sound)

theorem Layers.sound : ∀ {ls : List (NodeKind × List Event)} {lts : List (NodeKind × List Tree)},
    Layers ls lts → ∀ l ∈ ls, Sound l.2
  | _, _, .nil, _, hmem => nomatch hmem
  | _, _, .cons _ hi _, _, .head _ => hi.sound
  | _, _, .cons _ _ hl, _, .tail _ hmem => hl.sound _ hmem

end

/-- Along sound links every start leads to an outermost one. -/
theorem Sound.exists_outermost (h : Sound es) (hi : StartsAt es i) :
    ∃ j k, Relation.ReflTransGen (Points es) i j ∧ es[j]? = some (.start k none) := by
  induction hn : es.length - i using Nat.strongRecOn generalizing i with
  | _ n ih =>
    obtain ⟨k, parent?, he⟩ := hi
    cases parent? with
    | none => exact ⟨i, k, .refl, he⟩
    | some d =>
      have hpoints : Points es i (i + d) := ⟨k, d, he, rfl⟩
      have hforward := h.forward hpoints
      have hlt := hpoints.lt_length
      obtain ⟨j, k', hpath, hj⟩ := ih (es.length - (i + d)) (by omega) (h.startsAt hpoints) rfl
      exact ⟨j, k', .head hpoints hpath, hj⟩

end Event

end SwiftOutline
