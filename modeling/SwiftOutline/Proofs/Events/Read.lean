/-
  SwiftOutline.Proofs.Events.Read

  Reading events that record trees tells a builder these trees, with the trivia of
  the text in them. Events that have been read are placeholders and play no part
  any more, so only their number is traced.
-/
import SwiftOutline.Proofs.Events.Calls
import SwiftOutline.Proofs.Events.Records
import SwiftOutline.Proofs.Tree.Leaves

namespace SwiftOutline

open SwiftOutline.Tree (forestCalls weave weaveForest leadingTrivia)

/-! ## Weaving -/

namespace Tree

theorem weaveForest_singleton (t : Tree) (tokens : List Token) :
    weaveForest [t] tokens =
      (leadingTrivia tokens ++ (weave t (tokens.dropWhile Token.isTrivia)).1,
        (weave t (tokens.dropWhile Token.isTrivia)).2) := by
  simp [weaveForest]

end Tree

namespace Event

variable {es inside : List Event} {ts us : List Tree} {k : NodeKind}
  {ls : List (NodeKind × List Event)} {lts : List (NodeKind × List Tree)}

/-- What a builder is told of the nodes around a node, when that one is told and all are open; and
    the tokens that are left. -/
def tellLayers : List (NodeKind × List Tree) → List Token → List Call × List Token
  | [], tokens => ([], tokens)
  | l :: lts, tokens =>
    (forestCalls (weaveForest l.2.reverse tokens).1 ++
        .finishNode :: (tellLayers lts (weaveForest l.2.reverse tokens).2).1,
      (tellLayers lts (weaveForest l.2.reverse tokens).2).2)

/-- A tree in nodes around it is told with all of them open from the beginning. -/
theorem forestCalls_weave_around (t : Tree) (lts : List (NodeKind × List Tree))
    {tokens : List Token} (h : tokens.dropWhile Token.isTrivia = tokens) :
    forestCalls (weave (around t lts) tokens).1 =
        (lts.map fun l => Call.startNode l.1).reverse ++ forestCalls (weave t tokens).1 ++
          (tellLayers lts (weave t tokens).2).1 ∧
      (weave (around t lts) tokens).2 = (tellLayers lts (weave t tokens).2).2 := by
  have hnone : tokens.takeWhile Token.isTrivia = [] := by
    have hsplit := List.takeWhile_append_dropWhile (p := Token.isTrivia) (l := tokens)
    rw [h] at hsplit
    simpa using hsplit
  induction lts generalizing t with
  | nil => simp [around, tellLayers]
  | cons l lts ih =>
    have houter := ih (.node l.1 (t :: l.2.reverse))
    have hnode : weave (.node l.1 (t :: l.2.reverse)) tokens =
        ([.node l.1 ((weave t tokens).1 ++ (weaveForest l.2.reverse (weave t tokens).2).1)],
          (weaveForest l.2.reverse (weave t tokens).2).2) := by
      simp [weave, weaveForest, h, leadingTrivia, hnone]
    rw [hnode] at houter
    refine ⟨?_, houter.2⟩
    rw [around, List.foldl_cons, ← around, houter.1]
    simp [forestCalls, Tree.calls, tellLayers]

/-! ## Taking the starts of a node together -/

/-- Where the start of a node says that the next one is. -/
def nextStart? (inside : List Event) (ls : List (NodeKind × List Event)) : Option Nat :=
  if ls.isEmpty then none else some (inside.length + 2)

/-- The events of the nodes around a node. -/
def outside : List (NodeKind × List Event) → List Event
  | [] => []
  | l :: ls => chain l.1 l.2 ls

/-- The same when the starts have been taken out. -/
def opened : List (NodeKind × List Event) → List Event
  | [] => []
  | l :: ls => .placeholder :: (l.2 ++ .finish :: opened ls)

theorem chain_eq_cons (k : NodeKind) (inside : List Event) (ls : List (NodeKind × List Event)) :
    chain k inside ls = .start k (nextStart? inside ls) :: (inside ++ .finish :: outside ls) := by
  cases ls <;> rfl

theorem length_opened (ls : List (NodeKind × List Event)) :
    (opened ls).length = (outside ls).length := by
  induction ls with
  | nil => rfl
  | cons l ls ih =>
    rw [outside, chain_eq_cons, opened]
    simp [ih]

theorem parents_of_start {events : List Event} {i d : Nat} {parent? : Option Nat}
    (h : events[i + d]? = some (.start k parent?)) :
    parents events i (some d) =
      (parents (events.set (i + d) .placeholder) (i + d) parent?).map fun r => (k :: r.1, r.2) := by
  obtain ⟨hlt, he⟩ := List.getElem?_eq_some_iff.mp h
  rw [parents, dif_pos hlt]
  split
  · next k' parent?' he' =>
    rw [he] at he'
    obtain ⟨rfl, rfl⟩ := Event.start.inj he'
    rfl
  · next hne => exact absurd he (hne k parent?)

/-- Behind the start of a node, the starts of the nodes around it are found one after the other. -/
theorem parents_eq (front tail inside : List Event) (e : Event)
    (ls : List (NodeKind × List Event)) :
    parents (front ++ e :: (inside ++ .finish :: outside ls) ++ tail) front.length
        (nextStart? inside ls) =
      some (ls.map Prod.fst, front ++ e :: (inside ++ .finish :: opened ls) ++ tail) := by
  induction ls generalizing front inside e with
  | nil =>
    show parents _ _ none = _
    rw [parents]
    rfl
  | cons l ls ih =>
    let front' := front ++ e :: (inside ++ [Event.finish])
    have hlength : front.length + (inside.length + 2) = front'.length := by
      simp [front']
    have hevents : front ++ e :: (inside ++ .finish :: outside (l :: ls)) ++ tail =
        front' ++ .start l.1 (nextStart? l.2 ls) :: (l.2 ++ .finish :: outside ls ++ tail) := by
      rw [outside, chain_eq_cons]
      simp [front']
    have hstart : (front' ++ .start l.1 (nextStart? l.2 ls) ::
        (l.2 ++ .finish :: outside ls ++ tail))[front.length + (inside.length + 2)]? =
        some (.start l.1 (nextStart? l.2 ls)) := by
      rw [hlength]
      simp
    have hinner := ih front' l.2 .placeholder
    rw [nextStart?, if_neg (by simp), hevents, parents_of_start hstart, hlength]
    rw [List.set_append_right _ _ (Nat.le_refl _), Nat.sub_self, List.set_cons_zero]
    simp only [List.append_assoc, List.cons_append] at hinner ⊢
    rw [hinner]
    simp [front', opened]

end Event

namespace Sink

open Event

variable {es es' inside : List Event} {ts us : List Tree} {k : NodeKind}
  {ls : List (NodeKind × List Event)} {lts : List (NodeKind × List Tree)} {depth depth' : Nat}
  {tokens tokens' : List Token} {new new' : List Call}

theorem steps_add (m n i : Nat) (s : Sink) :
    steps (m + n) i s = (steps m i s).bind (steps n (i + m)) := by
  induction m generalizing i s with
  | zero => rw [Nat.zero_add, steps, Option.bind_some, Nat.add_zero]
  | succ m ih =>
    rw [Nat.add_right_comm, steps, steps]
    cases s.step i with
    | none => rfl
    | some s' =>
      rw [Option.bind_some, Option.bind_some, ih]
      congr 2
      omega

/-! ## Single events -/

theorem step_eq (front tail : List Event) (e : Event) (tokens : List Token) (depth : Nat)
    (calls : List Call) :
    step ⟨front ++ e :: tail, tokens, depth, calls⟩ front.length =
      let events := front ++ .placeholder :: tail
      let s : Sink := ⟨events, tokens, depth, calls⟩
      match e with
      | .start k parent? =>
        (parents events front.length parent?).map fun r =>
          { s with events := r.2 }.startNodes (k :: r.1)
      | .token k => some (s.eatTrivia.token k)
      | .finish => some (if s.depth = 1 then s.eatTrivia else s).finishNode
      | .placeholder => some s := by
  cases e <;> simp [step]

theorem startNodes_eq (s : Sink) (kinds : List NodeKind) :
    s.startNodes kinds = { if 0 < s.depth then s.eatTrivia else s with
      depth := s.depth + kinds.length
      calls := (if 0 < s.depth then s.eatTrivia else s).calls ++
        (kinds.map Call.startNode).reverse } := by
  rw [startNodes]
  induction kinds with
  | nil =>
    split
    · simp [eatTrivia]
    · simp
  | cons k kinds ih =>
    rw [List.reverse_cons, List.foldl_append, ih]
    simp [startNode, Nat.add_assoc]

/-! ## Runs of events -/

/-- Reading `es` tells a builder `new`, wherever the events stand. -/
def Tells (es : List Event) (depth depth' : Nat) (tokens tokens' : List Token) (new : List Call) :
    Prop :=
  ∀ front tail calls, ∃ front', front'.length = front.length + es.length ∧
    steps es.length front.length ⟨front ++ es ++ tail, tokens, depth, calls⟩ =
      some ⟨front' ++ tail, tokens', depth', calls ++ new⟩

namespace Tells

theorem nil : Tells [] depth depth tokens tokens [] :=
  fun front tail calls => ⟨front, rfl, by simp [steps]⟩

theorem append {depth'' : Nat} {tokens'' : List Token}
    (h : Tells es depth depth' tokens tokens' new) (h' : Tells es' depth' depth'' tokens' tokens'' new') :
    Tells (es ++ es') depth depth'' tokens tokens'' (new ++ new') := by
  intro front tail calls
  obtain ⟨front₁, hlength₁, hsteps₁⟩ := h front (es' ++ tail) calls
  obtain ⟨front₂, hlength₂, hsteps₂⟩ := h' front₁ tail (calls ++ new)
  refine ⟨front₂, by rw [hlength₂, hlength₁, List.length_append, Nat.add_assoc], ?_⟩
  rw [List.append_assoc] at hsteps₂
  rw [List.length_append, steps_add, List.append_assoc, List.append_assoc,
    ← List.append_assoc front, hsteps₁, Option.bind_some, ← hlength₁, hsteps₂, List.append_assoc]

theorem of_step {e : Event} (h : ∀ front tail calls,
    step ⟨front ++ e :: tail, tokens, depth, calls⟩ front.length =
      some ⟨front ++ Event.placeholder :: tail, tokens', depth', calls ++ new⟩) :
    Tells [e] depth depth' tokens tokens' new := by
  intro front tail calls
  refine ⟨front ++ [Event.placeholder], by simp, ?_⟩
  rw [List.append_assoc, List.singleton_append, List.length_singleton, steps, h, Option.bind_some,
    steps, List.append_assoc, List.singleton_append]

theorem placeholder : Tells [.placeholder] depth depth tokens tokens [] :=
  of_step fun front tail calls => by rw [step_eq, List.append_nil]

theorem finish (h : 1 < depth) : Tells [.finish] depth (depth - 1) tokens tokens [.finishNode] := by
  refine of_step fun front tail calls => ?_
  rw [step_eq]
  simp only [if_neg (by omega : ¬ depth = 1), finishNode]

theorem token (t : Token) : Tells [.token t.kind] depth depth tokens
    (weaveForest [.leaf t] tokens).2 (forestCalls (weaveForest [.leaf t] tokens).1) := by
  refine of_step fun front tail calls => ?_
  rw [step_eq, Tree.weaveForest_singleton]
  simp only [eatTrivia, Sink.token]
  cases tokens.dropWhile Token.isTrivia with
  | nil => simp [weave]
  | cons u us => simp [weave, forestCalls, Tree.calls]

/-- The first start of a node opens the nodes around it as well. -/
theorem chain (h : 0 < depth)
    (hopened : Tells (inside ++ .finish :: opened ls) (depth + (ls.length + 1)) depth
      (tokens.dropWhile Token.isTrivia) tokens' new) :
    Tells (chain k inside ls) depth depth tokens tokens'
      ((tokens.takeWhile Token.isTrivia).map .token ++
        (ls.map fun l => Call.startNode l.1).reverse ++ [Call.startNode k] ++ new) := by
  intro front tail calls
  obtain ⟨front', hlength, hsteps⟩ := hopened (front ++ [Event.placeholder]) tail
    (calls ++ ((tokens.takeWhile Token.isTrivia).map .token ++
      (ls.map fun l => Call.startNode l.1).reverse ++ [Call.startNode k]))
  have hsize :
      (inside ++ .finish :: opened ls).length = (inside ++ .finish :: outside ls).length := by
    simp [length_opened]
  have hparents := parents_eq front tail inside .placeholder ls
  refine ⟨front', ?_, ?_⟩
  · rw [hlength, hsize, chain_eq_cons]
    simp
    omega
  · rw [hsize] at hsteps
    simp only [List.append_assoc, List.cons_append, List.nil_append, List.length_append,
      List.length_cons, List.length_nil] at hsteps hparents ⊢
    rw [chain_eq_cons]
    simp only [List.cons_append, List.append_assoc, List.length_cons, List.length_append]
    rw [steps, step_eq]
    simp only [hparents, Option.map_some, Option.bind_some]
    rw [startNodes_eq, if_pos h]
    simp only [eatTrivia, List.length_cons, List.length_map, List.map_cons, List.reverse_cons,
      List.map_map, List.append_assoc]
    exact hsteps

/-- What stands in the nodes around a node is told level by level. -/
theorem opened_cons {l : NodeKind × List Event} {tokens'' : List Token} (h : 0 < depth)
    (hinside : Tells l.2 (depth + (ls.length + 1)) (depth + (ls.length + 1)) tokens tokens' new)
    (hrest : Tells (opened ls) (depth + ls.length) depth tokens' tokens'' new') :
    Tells (opened (l :: ls)) (depth + (ls.length + 1)) depth tokens tokens''
      (new ++ .finishNode :: new') := by
  have hfinish : Tells [.finish] (depth + (ls.length + 1)) (depth + ls.length) tokens' tokens'
      [.finishNode] := finish (by omega)
  have hall := placeholder.append (hinside.append (hfinish.append hrest))
  simpa [opened] using hall

/-- A node with the nodes around it. -/
theorem node (hd : 0 < depth) (hkinds : ls.map Prod.fst = lts.map Prod.fst)
    (hinside : ∀ tokens, Tells inside (depth + (ls.length + 1)) (depth + (ls.length + 1)) tokens
      (weaveForest us.reverse tokens).2 (forestCalls (weaveForest us.reverse tokens).1))
    (hopened : ∀ tokens, Tells (opened ls) (depth + ls.length) depth tokens
      (tellLayers lts tokens).2 (tellLayers lts tokens).1) :
    Tells (Event.chain k inside ls) depth depth tokens
      (weaveForest [around (.node k us.reverse) lts] tokens).2
      (forestCalls (weaveForest [around (.node k us.reverse) lts] tokens).1) := by
  let rest := tokens.dropWhile Token.isTrivia
  have hfinish : Tells [.finish] (depth + (ls.length + 1)) (depth + ls.length)
      (weaveForest us.reverse rest).2 (weaveForest us.reverse rest).2 [.finishNode] :=
    finish (by omega)
  have hchain := chain (k := k) hd ((hinside rest).append (hfinish.append (hopened _)))
  have hstarts : (ls.map fun l => Call.startNode l.1) = lts.map fun l => Call.startNode l.1 := by
    have hmap := congrArg (List.map Call.startNode) hkinds
    rwa [List.map_map, List.map_map] at hmap
  obtain ⟨hcalls, hlast⟩ :=
    forestCalls_weave_around (.node k us.reverse) lts (Token.dropWhile_dropWhile tokens)
  rw [Tree.weaveForest_singleton, Tree.forestCalls_append, Tree.forestCalls_leadingTrivia, hcalls,
    hlast]
  rw [hstarts] at hchain
  simpa [weave, forestCalls, Tree.calls, rest] using hchain

end Tells

/-! ## Events that record trees -/

mutual

/-- Events that record trees tell a builder these trees, woven with the trivia of the text. -/
theorem tells_of_records (depth : Nat) (hd : 0 < depth) (tokens : List Token) :
    ∀ {es : List Event} {ts : List Tree}, Records es ts →
      Tells es depth depth tokens (weaveForest ts.reverse tokens).2
        (forestCalls (weaveForest ts.reverse tokens).1)
  | _, _, .nil => .nil
  | _, _, .token t h => by
    rw [List.reverse_cons, Tree.weaveForest_append, Tree.forestCalls_append]
    exact (tells_of_records depth hd tokens h).append (.token t)
  | _, _, .placeholder h => by
    have hall := (tells_of_records depth hd tokens h).append .placeholder
    rwa [List.append_nil] at hall
  | _, _, .node k h hi hl => by
    rw [List.reverse_cons, Tree.weaveForest_append, Tree.forestCalls_append]
    refine (tells_of_records depth hd tokens h).append (.node hd hl.map_fst ?_ ?_)
    · exact fun tokens => tells_of_records _ (by omega) tokens hi
    · exact fun tokens => tells_of_layers depth hd tokens hl

/-- The same for what stands in each of several nodes. -/
theorem tells_of_layers (depth : Nat) (hd : 0 < depth) (tokens : List Token) :
    ∀ {ls : List (NodeKind × List Event)} {lts : List (NodeKind × List Tree)}, Layers ls lts →
      Tells (opened ls) (depth + ls.length) depth tokens (tellLayers lts tokens).2
        (tellLayers lts tokens).1
  | _, _, .nil => .nil
  | _, _, .cons k hi hl =>
    .opened_cons hd (tells_of_records _ (by omega) tokens hi) (tells_of_layers depth hd _ hl)

end

end Sink

end SwiftOutline
