/-
  SwiftOutline.Tree.Sink

  From a stream of events and the tokens of a text to a tree. The events are read
  in order, but the start of a node opens the nodes around it as well whose starts
  stand further ahead; these are taken out of the stream.
-/
import SwiftOutline.Grammar.Event

namespace SwiftOutline

/-! ## Building a tree -/

/-- What a builder of trees is told. -/
inductive Call where
  | startNode (kind : NodeKind)
  | token (token : Token)
  | finishNode
  deriving DecidableEq, Repr, Inhabited

/-- A tree that is being built. -/
structure Builder where
  /-- The open nodes, the innermost first, each with the elements before it, the newest first. -/
  above : List (NodeKind × List Tree)
  /-- The elements of the innermost open node so far, the newest first. -/
  built : List Tree

namespace Builder

/-- Nothing is built. -/
def empty : Builder := ⟨[], []⟩

/-- Does what it is told. A node can only be finished if one is open. -/
def call (b : Builder) : Call → Option Builder
  | .startNode k => some ⟨(k, b.built) :: b.above, []⟩
  | .token t => some { b with built := .leaf t :: b.built }
  | .finishNode =>
    match b.above with
    | [] => none
    | (k, before) :: above => some ⟨above, .node k b.built.reverse :: before⟩

/-- The tree, if it is a single node that is finished. -/
def finish (b : Builder) : Option Tree :=
  match b.above, b.built with
  | [], [.node k children] => some (.node k children)
  | _, _ => none

end Builder

/-- The tree that is built when a builder is told all this. -/
def Tree.ofCalls? (calls : List Call) : Option Tree :=
  (calls.foldlM Builder.call .empty).bind Builder.finish

/-! ## Reading events -/

namespace Event

/-- The kinds of the nodes around the one that is opened at `i`, the innermost first, and the events
    without their starts. There is no result where an index is out of range. -/
def parents (events : List Event) (i : Nat) : Option Nat → Option (List NodeKind × List Event)
  | none => some ([], events)
  | some d =>
    if h : i + d < events.length then
      match he : events[i + d] with
      | .start k parent? =>
        (parents (events.set (i + d) .placeholder) (i + d) parent?).map fun r => (k :: r.1, r.2)
      | _ => some ([], events.set (i + d) .placeholder)
    else none
termination_by events.countP isStart
decreasing_by
  have hpos : 0 < events.countP isStart :=
    List.countP_pos_iff.mpr ⟨events[i + d], List.getElem_mem h, by rw [he]; rfl⟩
  rw [List.countP_set h, he]
  simp only [isStart, if_true, Bool.false_eq_true, if_false]
  omega

end Event

/-- What reads events and tells a builder what to do. -/
structure Sink where
  /-- All events, with placeholders for those that have been read. -/
  events : List Event
  /-- The tokens that are left. -/
  tokens : List Token
  /-- How many nodes are open. -/
  depth : Nat
  /-- What the builder was told so far. -/
  calls : List Call

namespace Sink

/-- Before any event has been read. -/
def initial (events : List Event) (tokens : List Token) : Sink := ⟨events, tokens, 0, []⟩

/-- Adds the trivia that come next. -/
def eatTrivia (s : Sink) : Sink :=
  { s with
    tokens := s.tokens.dropWhile Token.isTrivia
    calls := s.calls ++ (s.tokens.takeWhile Token.isTrivia).map .token }

/-- Adds the next token, if there is one, as a token of kind `k`. -/
def token (s : Sink) (k : TokenKind) : Sink :=
  match s.tokens with
  | [] => s
  | t :: ts => { s with tokens := ts, calls := s.calls ++ [.token ⟨k, t.text⟩] }

/-- Opens a node. -/
def startNode (s : Sink) (k : NodeKind) : Sink :=
  { s with depth := s.depth + 1, calls := s.calls ++ [.startNode k] }

/-- Ends the node that was opened last. -/
def finishNode (s : Sink) : Sink :=
  { s with depth := s.depth - 1, calls := s.calls ++ [.finishNode] }

/-- Opens a node and the nodes around it, the outermost first. Trivia stand before all of them, but
    for the root. -/
def startNodes (s : Sink) (kinds : List NodeKind) : Sink :=
  kinds.reverse.foldl startNode (if 0 < s.depth then s.eatTrivia else s)

/-- Reads the event at `i`. -/
def step (s : Sink) (i : Nat) : Option Sink :=
  s.events[i]?.bind fun e =>
    let events := s.events.set i .placeholder
    match e with
    | .start k parent? =>
      (Event.parents events i parent?).map fun r => { s with events := r.2 }.startNodes (k :: r.1)
    | .token k => some ({ s with events }.eatTrivia.token k)
    | .finish =>
      let s := { s with events }
      some (if s.depth = 1 then s.eatTrivia else s).finishNode
    | .placeholder => some { s with events }

/-- Reads the next `n` events, the first of them at `i`. -/
def steps : (n : Nat) → (i : Nat) → Sink → Option Sink
  | 0, _, s => some s
  | n + 1, i, s => (s.step i).bind (steps n (i + 1))

/-- What a builder is told for a stream of events. -/
def read (events : List Event) (tokens : List Token) : Option (List Call) :=
  (steps events.length 0 (.initial events tokens)).map Sink.calls

end Sink

end SwiftOutline
