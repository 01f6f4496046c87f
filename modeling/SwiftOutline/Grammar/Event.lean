/-
  SwiftOutline.Grammar.Event

  Parsing into a flat stream of events. A node is opened by a placeholder, which
  becomes the start of the node once its kind is known. A node around one that is
  complete already is opened behind it: the start of the inner node then says how
  far ahead the start of the outer one stands.
-/
import SwiftOutline.Grammar.Item

namespace SwiftOutline

/-- An event of a parser. Offsets are not bounded. -/
inductive Event where
  /-- Opens a node, and tells how far ahead the node around it is opened if that one was begun
      later. -/
  | start (kind : NodeKind) (parent? : Option Nat)
  /-- Puts a token into the current node. -/
  | token (kind : TokenKind)
  /-- Ends the current node. -/
  | finish
  /-- Holds the place of a start. -/
  | placeholder
  deriving DecidableEq, Repr, Inhabited

namespace Event

/-- Whether the event opens a node. -/
def isStart : Event → Bool
  | .start _ _ => true
  | _ => false

/-- Whether the event ends a node. -/
def isFinish : Event → Bool
  | .finish => true
  | _ => false

/-- The event that holds the place of a node, once the node has a kind. -/
def named (k : NodeKind) : Event → Event
  | .placeholder => .start k none
  | .start _ parent? => .start k parent?
  | e => e

/-- Makes the event at `outer` the start around the node that the event at `current` opens, or around
    the outermost of the nodes that lie around that one already. There is no result where an index
    or an offset is out of range or the search does not end. -/
def link (outer current : Nat) (events : List Event) : Option (List Event) :=
  if h : current < events.length then
    match events[current] with
    | .start k none =>
      if current ≤ outer then some (events.set current (.start k (some (outer - current))))
      else none
    | .start _ (some d) => if 0 < d then link outer (current + d) events else none
    | _ => some events
  else none
termination_by events.length - current

end Event

/-- What a parser holds that writes events. -/
structure Writer where
  view : View
  /-- The events so far, the oldest first. -/
  events : List Event
  /-- The problems found so far, the newest first. -/
  reports : List Report
  /-- The place of the node that was completed last, if nothing has been written since. -/
  completed? : Option Nat
  /-- The places that were held for nodes which came to nothing. -/
  abandoned : List Nat

namespace Writer

/-- Before anything has been parsed: the root is open. -/
def initial (lexemes : List Lexeme) (endGap : Gap) : Writer :=
  ⟨⟨lexemes, endGap, 0⟩, [.start .sourceFile none], [], none, []⟩

/-- Adds an event. -/
def push (w : Writer) (e : Event) : Writer :=
  { w with events := w.events ++ [e], completed? := none }

/-- Consumes the next lexeme, if there is one. An `eof` lexeme is none: it stays where it is. -/
def consume (w : Writer) : Writer :=
  match w.view.lexemes with
  | [] => w
  | l :: ls =>
    if l.kind == .eof then w
    else { w.push (.token l.kind) with view := { w.view with lexemes := ls } }

/-- Notes a problem at the next lexeme. -/
def complain (w : Writer) (p : Problem) : Writer :=
  { w with reports := ⟨p, w.view.lexemes.length⟩ :: w.reports }

/-- Sets the number of open `#if` blocks. -/
def withDirectives (w : Writer) (n : Nat) : Writer :=
  { w with view := { w.view with directives := n } }

/-- Holds a place for a node around the one whose place is `c`. -/
def precede (w : Writer) (c : Nat) : Option Writer :=
  (Event.link w.events.length c (w.push .placeholder).events).map fun events =>
    { w.push .placeholder with events }

/-- Holds a place for a node; if `adopt`, for one around the node completed last. -/
def mark (w : Writer) (adopt : Bool) : Option Writer :=
  if adopt then w.completed?.bind w.precede else some (w.push .placeholder)

/-- Ends a `k` node whose place is `pos`. For a node whose kind is known before, its start may be
    written at once: the events are the same. -/
def complete (w : Writer) (pos : Nat) (k : NodeKind) : Writer :=
  { w with
    events := w.events.modify pos (Event.named k) ++ [.finish]
    completed? := some pos }

/-- Gives the place at `pos` up. It is removed if it is the last event. -/
def abandon (w : Writer) (pos : Nat) : Option Writer :=
  if w.events.length = 0 then none
  else
    let last := pos == w.events.length - 1 && w.events.getLast? == some .placeholder
    some { w with
      events := if last then w.events.dropLast else w.events
      completed? := none
      abandoned := pos :: w.abandoned }

/-- Ends the node whose place is `pos`, or gives the place up if there is no kind for it. -/
def close (w : Writer) (pos : Nat) : Option NodeKind → Option Writer
  | some k => some (w.complete pos k)
  | none => w.abandon pos

end Writer

namespace Parser

/-- Goes through the rounds of a loop, at most `rounds` of them, with what a parser holds. -/
def writeRounds {σ ω : Type} (round : σ → ω → Option (Step σ × ω)) :
    (rounds : Nat) → σ → ω → Option (σ × ω)
  | 0, a, w => some (a, w)
  | n + 1, a, w => (round a w).bind fun
    | (.stop b, w') => some (b, w')
    | (.again b, w') => writeRounds round n b w'

/-- Runs a program that writes events, with `call` for the rules it follows. -/
def write (call : Rule → Writer → Option (Bool × Writer)) :
    {α : Type} → Parser α → Writer → Option (α × Writer)
  | _, .done a, w => some (a, w)
  | _, .look next, w => write call (next w.view) w
  | _, .consume next, w => write call next w.consume
  | _, .complain p next, w => write call next (w.complain p)
  | _, .group adopt body next, w =>
    (w.mark adopt).bind fun marked =>
      (write call body marked).bind fun r =>
        (r.2.close w.events.length r.1.2).bind fun closed => write call (next r.1.1) closed
  | _, .directive body next, w =>
    (write call body (w.withDirectives (w.view.directives + 1))).bind fun r =>
      write call (next r.1) (r.2.withDirectives w.view.directives)
  | _, .call rule next, w => (call rule w).bind fun r => write call (next r.1) r.2
  | _, .loop body init next, w =>
    (writeRounds (fun a w => write call (body a) w) (w.view.lexemes.length + 1) init w).bind fun r =>
      write call (next r.1) r.2

end Parser

namespace Grammar

/-- Follows a rule and writes events, with rules called inside each other at most `depth` deep. -/
def writeRule : (depth : Nat) → Rule → Writer → Option (Bool × Writer)
  | 0, _, w => some (false, w)
  | depth + 1, r, w => (body r).write (writeRule depth) w

end Grammar

/-- Writes the events of tokens: what the root holds, between its start and its end. -/
def writeTokens (tokens : List Token) : Option Writer :=
  let (lexemes, endGap) := Lexeme.ofTokens tokens
  (Grammar.file.write (Grammar.writeRule (Grammar.depthBound lexemes.length))
    (Writer.initial lexemes endGap)).map fun r => r.2.push .finish

end SwiftOutline
