/-
  SwiftOutline.Proofs.Parser.Reads

  What a program makes of given lexemes, whatever was built and reported before:
  it consumes some, leaves the others and adds trees. Such facts are put together
  as the programs are. The depth of rules is left out of them; every depth from
  some point on will do.
-/
import SwiftOutline.Grammar.Item
import SwiftOutline.Proofs.Parser.Run
import Mathlib.Logic.Relation

namespace SwiftOutline

/-! ## Points of a run -/

/-- A point of a run: the lexemes that are left, and the trees that were built on the way. -/
structure Point where
  lexemes : List Lexeme
  trees : List Tree

namespace State

/-- The state at a point of a run that began in `s`. -/
def after (s : State) (c : Point) : State :=
  { s with view := { s.view with lexemes := c.lexemes }, built := c.trees.reverse ++ s.built }

variable {s : State} {c d : Point} {ls rest : List Lexeme} {ts us : List Tree} {l : Lexeme}

@[simp] theorem left_after : (s.after c).left = c.lexemes.length := rfl

@[simp] theorem lexemes_after : (s.after c).view.lexemes = c.lexemes := rfl

@[simp] theorem after_after : (s.after ⟨ls, ts⟩).after ⟨rest, us⟩ = s.after ⟨rest, ts ++ us⟩ := by
  simp [after]

theorem after_self (h : s.view.lexemes = ls) : s.after ⟨ls, []⟩ = s := by
  subst h
  rfl

theorem consume_after (h : l.kind ≠ .eof) :
    (s.after ⟨l :: ls, ts⟩).consume = s.after ⟨ls, ts ++ [Tree.leaf l.token]⟩ := by
  simp [after, consume, h]

end State

/-! ## What a view shows -/

namespace View

variable {v : View} {n : Nat}

theorem kindAt_eq : v.kindAt n = Lookahead.headKind (v.lexemes.drop n) := by
  rw [kindAt, ← List.head?_drop]
  cases v.lexemes.drop n <;> rfl

theorem kind_eq : v.kind = Lookahead.headKind v.lexemes := kindAt_eq

theorem spellsAt_eq {word : String} :
    v.spellsAt n word = Lookahead.spells word (v.lexemes.drop n) := by
  rw [spellsAt, kindAt, textAt, ← List.head?_drop]
  cases v.lexemes.drop n <;> rfl

theorem spells_eq {word : String} : v.spells word = Lookahead.spells word v.lexemes := spellsAt_eq

theorem seesJoined_eq {k : TokenKind} (hk : k ≠ .eof) :
    v.seesJoined k = Lookahead.seesJoined k v.lexemes := by
  rw [seesJoined, kind, kindAt, gap, gapAt, ← List.head?_drop, List.drop_zero]
  cases v.lexemes with
  | nil => simp [Lookahead.seesJoined, Ne.symm hk]
  | cons l ls => rfl

end View

namespace Parser

open Grammar (runRule body)

variable {α β : Type} {p : Parser α} {q : Parser Bool} {a : α} {b : β} {c d e : Point}
  {ls rest : List Lexeme} {ts us : List Tree} {l : Lexeme} {k : TokenKind}

/-! ## Reading -/

/-- From a state at the point `c`, the program comes with the result `a` to the point `d`. -/
def Reads (p : Parser α) (a : α) (c d : Point) : Prop :=
  ∀ s : State, ∃ enough, ∀ depth, enough ≤ depth →
    p.run (runRule depth) (s.after c) = (a, s.after d)

namespace Reads

theorem pure : Reads (Pure.pure a : Parser α) a c c :=
  fun _ => ⟨0, fun _ _ => rfl⟩

/-- Sequencing. -/
theorem bind {f : α → Parser β} (h : Reads p a c d) (h' : Reads (f a) b d e) :
    Reads (p >>= f) b c e := by
  intro s
  obtain ⟨m, hm⟩ := h s
  obtain ⟨n, hn⟩ := h' s
  refine ⟨max m n, fun depth hd => ?_⟩
  rw [run_bind_of_run (hm depth (by omega))]
  exact hn depth (by omega)

/-- What was built before does not matter. -/
theorem frame (h : Reads p a ⟨ls, ts⟩ ⟨rest, us⟩) (before : List Tree) :
    Reads p a ⟨ls, before ++ ts⟩ ⟨rest, before ++ us⟩ := by
  intro s
  simpa only [State.after_after] using h (s.after ⟨ls, before⟩)

/-- A program that reads from nothing built. -/
theorem onto (h : Reads p a ⟨ls, []⟩ ⟨rest, us⟩) (before : List Tree) :
    Reads p a ⟨ls, before⟩ ⟨rest, before ++ us⟩ := by
  simpa only [List.append_nil] using h.frame before

/-! ### Looking -/

theorem view {f : View → Parser α} (h : ∀ v : View, v.lexemes = c.lexemes → Reads (f v) a c d) :
    Reads (view >>= f) a c d :=
  fun s => h (s.after c).view rfl s

theorem kind {f : TokenKind → Parser α} (h : Reads (f (Lookahead.headKind c.lexemes)) a c d) :
    Reads (Parser.kind >>= f) a c d := by
  intro s
  simpa only [run_kind_bind, View.kind_eq, State.lexemes_after] using h s

theorem sees {f : Bool → Parser α} (h : Reads (f (Lookahead.headKind c.lexemes == k)) a c d) :
    Reads (Parser.sees k >>= f) a c d := by
  intro s
  simpa only [run_sees_bind, View.kind_eq, State.lexemes_after] using h s

theorem seesJoined {f : Bool → Parser α} (hk : k ≠ .eof)
    (h : Reads (f (Lookahead.seesJoined k c.lexemes)) a c d) :
    Reads (Parser.seesJoined k >>= f) a c d := by
  intro s
  simpa only [run_seesJoined_bind, View.seesJoined_eq hk, State.lexemes_after] using h s

/-! ### Consuming -/

theorem bump (hl : l.kind ≠ .eof) :
    Reads bump () ⟨l :: ls, ts⟩ ⟨ls, ts ++ [Tree.leaf l.token]⟩ :=
  fun s => ⟨0, fun depth _ => by rw [run_bump, s.consume_after hl]⟩

theorem eat (hl : l.kind = k) (hk : k ≠ .eof) :
    Reads (eat k) true ⟨l :: ls, ts⟩ ⟨ls, ts ++ [Tree.leaf l.token]⟩ := by
  refine sees ?_
  rw [Lookahead.headKind, if_pos (by simp [hl])]
  exact (bump (hl ▸ hk)).bind pure

theorem eat_not (hk : Lookahead.headKind ls ≠ k) :
    Reads (Parser.eat k) false ⟨ls, ts⟩ ⟨ls, ts⟩ := by
  refine sees ?_
  rw [if_neg (by simp [hk])]
  exact pure

theorem require {problem : Problem} (hl : l.kind = k) (hk : k ≠ .eof) :
    Reads (require k problem) () ⟨l :: ls, ts⟩ ⟨ls, ts ++ [Tree.leaf l.token]⟩ := by
  have hexpect : Reads (expect k problem) true ⟨l :: ls, ts⟩ ⟨ls, ts ++ [Tree.leaf l.token]⟩ := by
    refine (eat hl hk).bind ?_
    rw [if_pos rfl]
    exact pure
  exact hexpect.bind pure

/-! ### Rules -/

theorem follow {r : Rule} {b : Bool} (h : Reads (body r) b c d) : Reads (follow r) b c d := by
  intro s
  obtain ⟨n, hn⟩ := h s
  refine ⟨n + 1, fun depth hd => ?_⟩
  obtain ⟨depth, rfl⟩ : ∃ m, depth = m + 1 := ⟨depth - 1, by omega⟩
  exact hn depth (by omega)

theorem follow' {r : Rule} {b : Bool} (h : Reads (body r) b c d) : Reads (follow' r) () c d := by
  intro s
  obtain ⟨n, hn⟩ := follow h s
  refine ⟨n, fun depth hd => ?_⟩
  have hrun := hn depth hd
  rw [run_follow] at hrun
  rw [run_follow', hrun]

/-! ### Nodes -/

theorem node {k : NodeKind} (ts : List Tree) (h : Reads p a ⟨ls, []⟩ ⟨rest, us⟩) :
    Reads (node k p) a ⟨ls, ts⟩ ⟨rest, ts ++ [Tree.node k us]⟩ := by
  intro s
  obtain ⟨n, hn⟩ := h ((s.after ⟨ls, ts⟩).start false)
  refine ⟨n, fun depth hd => ?_⟩
  have hstart : ((s.after ⟨ls, ts⟩).start false).after ⟨ls, []⟩ =
      (s.after ⟨ls, ts⟩).start false := State.after_self rfl
  rw [run_node, ← hstart, hn depth hd]
  simp [State.finish, State.after, State.start]

theorem wrap {k : NodeKind} {t : Tree} (ts : List Tree)
    (h : Reads p a ⟨ls, [t]⟩ ⟨rest, t :: us⟩) :
    Reads (wrap k p) a ⟨ls, ts ++ [t]⟩ ⟨rest, ts ++ [Tree.node k (t :: us)]⟩ := by
  intro s
  obtain ⟨n, hn⟩ := h ((s.after ⟨ls, ts⟩).start false)
  refine ⟨n, fun depth hd => ?_⟩
  have hstart : ((s.after ⟨ls, ts⟩).start false).after ⟨ls, [t]⟩ =
      (s.after ⟨ls, ts ++ [t]⟩).start true := by
    simp [State.after, State.start]
  rw [run_wrap, ← hstart, hn depth hd]
  simp [State.finish, State.after, State.start]

theorem node? {k : NodeKind} {p : Parser (Option NodeKind)} (ts : List Tree)
    (h : Reads p (some k) ⟨ls, []⟩ ⟨rest, us⟩) :
    Reads (node? p) true ⟨ls, ts⟩ ⟨rest, ts ++ [Tree.node k us]⟩ := by
  intro s
  obtain ⟨n, hn⟩ := h ((s.after ⟨ls, ts⟩).start false)
  refine ⟨n, fun depth hd => ?_⟩
  have hstart : ((s.after ⟨ls, ts⟩).start false).after ⟨ls, []⟩ =
      (s.after ⟨ls, ts⟩).start false := State.after_self rfl
  rw [run_node?, ← hstart, hn depth hd]
  simp [State.finish, State.after, State.start]

end Reads

/-! ## Rounds -/

/-- One round of a repetition that goes on. -/
def ReadsOn (q : Parser Bool) (c d : Point) : Prop :=
  Reads q true c d ∧ d.lexemes.length < c.lexemes.length

/-- Any number of rounds of a repetition that goes on. -/
def ReadsMany (q : Parser Bool) : Point → Point → Prop :=
  Relation.ReflTransGen (ReadsOn q)

namespace ReadsMany

theorem refl : ReadsMany q c c := Relation.ReflTransGen.refl

theorem single (h : ReadsOn q c d) : ReadsMany q c d := Relation.ReflTransGen.single h

theorem trans (h : ReadsMany q c d) (h' : ReadsMany q d e) : ReadsMany q c e :=
  Relation.ReflTransGen.trans h h'

/-- What was built before does not matter. -/
theorem onto (h : ReadsMany q ⟨ls, []⟩ ⟨rest, us⟩) (before : List Tree) :
    ReadsMany q ⟨ls, before⟩ ⟨rest, before ++ us⟩ := by
  have hlift : ReadsMany q ⟨ls, before ++ []⟩ ⟨rest, before ++ us⟩ :=
    Relation.ReflTransGen.lift (p := ReadsOn q)
      (fun c : Point => (⟨c.lexemes, before ++ c.trees⟩ : Point))
      (fun _ _ hon => ⟨hon.1.frame before, hon.2⟩) _ _ h
  rwa [List.append_nil] at hlift

end ReadsMany

/-- A repetition goes on for some rounds and then stops. -/
theorem Reads.repeating (h : ReadsMany q c d) (hstop : Reads q false d e) :
    Reads (repeating q) () c e := by
  intro s
  -- one more round than there are lexemes is always enough
  have hrounds : ∃ enough, ∀ depth, enough ≤ depth → ∀ n, c.lexemes.length < n →
      roundsOf (q.run (runRule depth)) n (s.after c) = s.after e := by
    induction h using Relation.ReflTransGen.head_induction_on with
    | refl =>
      obtain ⟨m, hm⟩ := hstop s
      refine ⟨m, fun depth hd n hn => ?_⟩
      obtain ⟨n, rfl⟩ : ∃ k, n = k + 1 := ⟨n - 1, by omega⟩
      rw [roundsOf, hm depth hd]
      rfl
    | head hon _ ih =>
      obtain ⟨m, hm⟩ := hon.1 s
      obtain ⟨m', hm'⟩ := ih
      have hlt := hon.2
      refine ⟨max m m', fun depth hd n hn => ?_⟩
      obtain ⟨n, rfl⟩ : ∃ k, n = k + 1 := ⟨n - 1, by omega⟩
      rw [roundsOf, hm depth (by omega), if_pos rfl]
      exact hm' depth (by omega) n (by omega)
  obtain ⟨m, hm⟩ := hrounds
  refine ⟨m, fun depth hd => ?_⟩
  rw [run_repeating, hm depth hd _ (by simp)]

/-- A repetition that stops at once. -/
theorem Reads.repeating_not (hstop : Reads q false c c) : Reads (Parser.repeating q) () c c :=
  .repeating .refl hstop

/-- The rounds of a repetition up to its end. -/
def ReadsAll (q : Parser Bool) (c e : Point) : Prop :=
  ∃ d, ReadsMany q c d ∧ Reads q false d e

namespace ReadsAll

theorem stop (h : Reads q false c d) : ReadsAll q c d := ⟨c, .refl, h⟩

/-- One more round in front. -/
theorem again (h : ReadsOn q c d) (h' : ReadsAll q d e) : ReadsAll q c e := by
  obtain ⟨x, hmany, hstop⟩ := h'
  exact ⟨x, (ReadsMany.single h).trans hmany, hstop⟩

/-- What was built before does not matter. -/
theorem onto (h : ReadsAll q ⟨ls, []⟩ ⟨rest, us⟩) (before : List Tree) :
    ReadsAll q ⟨ls, before⟩ ⟨rest, before ++ us⟩ := by
  obtain ⟨x, hmany, hstop⟩ := h
  exact ⟨⟨x.lexemes, before ++ x.trees⟩, hmany.onto before, hstop.frame before⟩

theorem repeating (h : ReadsAll q c e) : Reads (Parser.repeating q) () c e := by
  obtain ⟨d, hmany, hstop⟩ := h
  exact .repeating hmany hstop

end ReadsAll

/-! ## Loops -/

/-- The rounds of a loop from the state `x` up to the state `z` that it ends in. -/
inductive Loops {σ : Type} (round : σ → Parser (Step σ)) (z : σ) : σ → Point → Point → Prop where
  | stop {x : σ} {c d : Point} (h : Reads (round x) (.stop z) c d) : Loops round z x c d
  | again {x y : σ} {c d e : Point} (h : Reads (round x) (.again y) c d)
      (eaten : d.lexemes.length < c.lexemes.length) (rest : Loops round z y d e) :
      Loops round z x c e

/-- A loop, and what is done with its last state. -/
theorem Reads.loop {σ : Type} {round : σ → Parser (Step σ)} {x z : σ} {f : σ → Parser α}
    (h : Loops round z x c d) (h' : Reads (f z) a d e) : Reads (.loop round x f) a c e := by
  intro s
  have hrounds : ∃ enough, ∀ depth, enough ≤ depth → ∀ n, c.lexemes.length < n →
      runRounds (fun x s => (round x).run (runRule depth) s) n x (s.after c) = (z, s.after d) := by
    clear h'
    induction h with
    | stop h =>
      obtain ⟨m, hm⟩ := h s
      refine ⟨m, fun depth hd n hn => ?_⟩
      obtain ⟨n, rfl⟩ : ∃ k, n = k + 1 := ⟨n - 1, by omega⟩
      rw [runRounds, hm depth hd]
    | again h eaten _ ih =>
      obtain ⟨m, hm⟩ := h s
      obtain ⟨m', hm'⟩ := ih
      refine ⟨max m m', fun depth hd n hn => ?_⟩
      obtain ⟨n, rfl⟩ : ∃ k, n = k + 1 := ⟨n - 1, by omega⟩
      rw [runRounds, hm depth (by omega)]
      exact hm' depth (by omega) n (by omega)
  obtain ⟨m, hm⟩ := hrounds
  obtain ⟨m', hm'⟩ := h' s
  refine ⟨max m m', fun depth hd => ?_⟩
  have hloop := hm depth (by omega) ((s.after c).view.lexemes.length + 1) (Nat.lt_succ_self _)
  rw [run_loop, State.left, hloop]
  exact hm' depth (by omega)

end Parser

end SwiftOutline
