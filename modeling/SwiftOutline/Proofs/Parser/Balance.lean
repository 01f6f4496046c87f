/-
  SwiftOutline.Proofs.Parser.Balance

  Runs of tokens are balanced. Behind an expression the parser reports what is
  still open. A pattern says nothing when it ends inside parentheses or brackets;
  but it ends there only before a closing brace or at the end of the text, and no
  program that follows a pattern gets past these without a report.
-/
import SwiftOutline.Proofs.Parser.Advance
import SwiftOutline.Proofs.Parser.Kinds
import SwiftOutline.Proofs.Tree.Balance
import SwiftOutline.Proofs.Tree.Everywhere

namespace SwiftOutline

/-- A run of tokens leaves no group open. -/
def Tree.ClosedRun (k : NodeKind) (children : List Tree) : Prop :=
  k = .expr → groupDepth? children = some 0

open SwiftOutline.Tree (ClosedRun IsApart groupDepth?)
open SwiftOutline.TokenKind (depthBehind?)

/-! ## States -/

namespace State

variable {s t u : State} {depth depth' : Nat}

/-- A closing brace or the end of the text comes next. -/
def AtStop (s : State) : Prop := s.view.kind = .eof ∨ s.view.kind = .rBrace

theorem AtStop.kind_ne {k : TokenKind} (h : s.AtStop) (he : k ≠ .eof) (hb : k ≠ .rBrace) :
    (s.view.kind == k) = false := by
  rcases h with h | h
  · rw [h]
    exact beq_false_of_ne he.symm
  · rw [h]
    exact beq_false_of_ne hb.symm

theorem reports_consume (s : State) : s.consume.reports = s.reports := by
  cases hend : s.view.atEnd with
  | true => rw [consume_of_atEnd hend]
  | false =>
    obtain ⟨l, rest, -, -, hconsume⟩ := consume_of_not_atEnd hend
    rw [hconsume]

/-- The newest element is a node. -/
def NodeOnTop (s : State) : Prop :=
  ∃ k children before, s.built = .node k children :: before

theorem adds_consume_of_kind (ho : s.view.kind.opensGroup = false)
    (hc : s.view.kind.closesGroup = false) : s.Adds IsApart s.consume := by
  cases hend : s.view.atEnd with
  | true => rw [consume_of_atEnd hend]; exact .refl s
  | false =>
    obtain ⟨l, rest, hl, -, hconsume⟩ := consume_of_not_atEnd hend
    rw [kind_of_lexemes hl] at ho hc
    rw [hconsume]
    refine ⟨[.leaf l.token], rfl, fun x hx k hk => ?_⟩
    obtain rfl := List.mem_singleton.mp hx
    obtain rfl := Option.some.inj hk
    exact ⟨ho, hc⟩

/-- Unless a problem was reported, no run leaves a group open, if none did before. -/
def keepingClosed : Parser.Kept where
  rel s t := t.reports = [] → s.reports = [] ∧ (s.Everywhere ClosedRun → t.Everywhere ClosedRun)
  free k := k ≠ .expr
  refl _ hs := ⟨hs, id⟩
  trans h h' hu := by
    obtain ⟨ht, htu⟩ := h' hu
    obtain ⟨hs, hst⟩ := h ht
    exact ⟨hs, htu ∘ hst⟩
  consume s hs := ⟨s.reports_consume ▸ hs, .consume⟩
  complain _ _ hs := nomatch hs
  finish h hk ht := by
    obtain ⟨hs, hclosed⟩ := h ht
    refine ⟨hs, fun hbefore => hbefore.finish (hclosed (hbefore.start _)) fun k hk' hexpr => ?_⟩
    exact absurd hexpr (hk k hk')
  withDirectives h := h

instance : DecidablePred keepingClosed.free :=
  fun k => inferInstanceAs (Decidable (k ≠ .expr))

/-- The same, but a stop may have been reached inside of a group. -/
def ClosesOrStops (s t : State) : Prop :=
  t.reports = [] → s.reports = [] ∧ (s.Everywhere ClosedRun → t.Everywhere ClosedRun ∨ t.AtStop)

theorem closesOrStops_of_rel (h : keepingClosed.rel s t) : s.ClosesOrStops t :=
  fun ht => (h ht).imp_right fun hclosed hs => .inl (hclosed hs)

theorem ClosesOrStops.rel (h : s.ClosesOrStops t) (ht : ¬ t.AtStop) : keepingClosed.rel s t :=
  fun hr => (h hr).imp_right fun hclosed hs => (hclosed hs).resolve_right ht

theorem ClosesOrStops.of_rel (h : keepingClosed.rel s t) (h' : t.ClosesOrStops u) :
    s.ClosesOrStops u := by
  intro hu
  obtain ⟨ht, htu⟩ := h' hu
  obtain ⟨hs, hst⟩ := h ht
  exact ⟨hs, htu ∘ hst⟩

/-! ### Runs under way -/

/-- In `t` a run is under way that was begun in `s`. Unless a problem was reported, `depth` groups
    are open in it. -/
def RunsFrom (s : State) (depth : Nat) (t : State) : Prop :=
  t.reports = [] →
    s.reports = [] ∧ (s.Everywhere ClosedRun → t.Everywhere ClosedRun) ∧
      groupDepth? t.built.reverse = some depth

theorem runsFrom_start (s : State) : s.RunsFrom 0 (s.start false) :=
  fun hs => ⟨hs, fun h => h.start false, rfl⟩

/-- A run that begins with a node. -/
theorem runsFrom_start_adopt {k : NodeKind} {children before : List Tree}
    (h : s.built = .node k children :: before) : s.RunsFrom 0 (s.start true) := by
  refine fun hs => ⟨hs, fun h => h.start true, ?_⟩
  rw [start, h]
  rfl

theorem RunsFrom.consume (h : s.RunsFrom depth t)
    (hk : depthBehind? depth t.view.kind = some depth') : s.RunsFrom depth' t.consume := by
  intro hr
  obtain ⟨hs, hclosed, hdepth⟩ := h (t.reports_consume ▸ hr)
  refine ⟨hs, fun hbefore => (hclosed hbefore).consume, ?_⟩
  cases hend : t.view.atEnd with
  | true =>
    have heof : t.view.kind = .eof := eq_of_beq hend
    rw [heof] at hk
    rw [consume_of_atEnd hend, hdepth]
    exact hk
  | false =>
    obtain ⟨l, rest, hl, -, hconsume⟩ := consume_of_not_atEnd hend
    rw [hconsume, List.reverse_cons, Tree.groupDepth?_leaf hdepth, ← hk, kind_of_lexemes hl]
    rfl

/-- What neither opens nor closes a group comes behind the run. -/
theorem RunsFrom.adds (h : s.RunsFrom depth t) (hrel : keepingClosed.rel t u)
    (hadds : t.Adds IsApart u) : s.RunsFrom depth u := by
  intro hu
  obtain ⟨ht, htu⟩ := hrel hu
  obtain ⟨hs, hclosed, hdepth⟩ := h ht
  obtain ⟨new, hnew, hapart⟩ := hadds
  refine ⟨hs, htu ∘ hclosed, ?_⟩
  have hnews : ∀ x ∈ new.reverse, IsApart x := fun x hx => hapart x (List.mem_reverse.mp hx)
  rw [hnew, List.reverse_append, Tree.groupDepth?_append hnews, hdepth]

/-- A run that leaves nothing open. -/
theorem RunsFrom.finish {adopt : Bool} (h : s.RunsFrom 0 t) :
    keepingClosed.rel s (t.finish s adopt (some .expr)) := by
  intro ht
  obtain ⟨hs, hclosed, hdepth⟩ := h ht
  refine ⟨hs, fun hbefore => hbefore.finish (hclosed hbefore) fun k hk _ => hdepth⟩

end State

/-! ## Loops -/

/-- What a round of a loop hands on. -/
def Step.outcome {σ : Type} : Step σ → σ
  | .again a | .stop a => a

namespace Parser

variable {σ : Type} {round : σ → State → Step σ × State} {I J : σ → State → Prop}

/-- What every round keeps, a loop does. -/
theorem of_runRounds (h : ∀ a s, I a s → I (round a s).1.outcome (round a s).2) (n : Nat) {a : σ}
    {s : State} (hs : I a s) : I (runRounds round n a s).1 (runRounds round n a s).2 := by
  induction n generalizing a s with
  | zero => exact hs
  | succ n ih =>
    have hround := h a s hs
    rw [runRounds]
    split
    · next hr => rwa [hr] at hround
    · next hr => exact ih (by rwa [hr] at hround)

/-- A loop whose rounds consume something, but for the last one, comes to its last round. -/
theorem ends_of_runRounds
    (h : ∀ a s, I a s → I (round a s).1.outcome (round a s).2 ∧
      ((round a s).1.goesOn → (round a s).2.left < s.left) ∧
      (¬ (round a s).1.goesOn → J (round a s).1.outcome (round a s).2))
    {n : Nat} {a : σ} {s : State} (hn : s.left < n) (hs : I a s) :
    I (runRounds round n a s).1 (runRounds round n a s).2 ∧
      J (runRounds round n a s).1 (runRounds round n a s).2 := by
  induction n generalizing a s with
  | zero => omega
  | succ n ih =>
    obtain ⟨hnext, hon, hlast⟩ := h a s hs
    rw [runRounds]
    split
    · next hr =>
      rw [hr] at hnext hlast
      exact ⟨hnext, hlast id⟩
    · next hr =>
      rw [hr] at hnext hon
      exact ih (Nat.lt_of_lt_of_le (hon trivial) (Nat.le_of_lt_succ hn)) hnext

end Parser

/-! ## Programs -/

namespace Parser

open State (keepingClosed ClosesOrStops)

variable {α β : Type} {call : Rule → State → Bool × State} {p : Parser α} {f : α → Parser β}

/-- All runs that `p` makes are closed, or `p` comes to a stop. -/
def Halts (call : Rule → State → Bool × State) (p : Parser α) : Prop :=
  ∀ s : State, s.ClosesOrStops (p.run call s).2

/-- At a stop `p` stays, unless it reports something. -/
def Waits (call : Rule → State → Bool × State) (p : Parser α) : Prop :=
  ∀ s : State, s.AtStop → (p.run call s).2.reports = [] → (p.run call s).2.AtStop

/-- At a stop `p` does nothing. -/
def Idles (call : Rule → State → Bool × State) (p : Parser α) (a : α) : Prop :=
  ∀ s : State, s.AtStop → p.run call s = (a, s)

/-- At a stop `p` reports something. -/
def Objects (call : Rule → State → Bool × State) (p : Parser α) : Prop :=
  ∀ s : State, s.AtStop → (p.run call s).2.reports ≠ []

theorem Halts.of_by (h : keepingClosed.By call p) : Halts call p :=
  fun s => State.closesOrStops_of_rel (h s)

theorem Halts.bind (hp : Halts call p) (hf : ∀ a, Halts call (f a)) (hw : ∀ a, Waits call (f a)) :
    Halts call (p >>= f) := by
  intro s
  rw [run_bind]
  generalize (p.run call s).1 = a, hat : (p.run call s).2 = t
  have hst : s.ClosesOrStops t := hat ▸ hp s
  by_cases ht : t.AtStop
  · exact fun hu => ⟨(hst (hf a t hu).1).1, fun _ => .inr (hw a t ht hu)⟩
  · exact .of_rel (hst.rel ht) (hf a t)

theorem Halts.bind_of_by (hp : keepingClosed.By call p) (hf : ∀ a, Halts call (f a)) :
    Halts call (p >>= f) := by
  intro s
  rw [run_bind]
  exact .of_rel (hp s) (hf _ _)

/-- What follows reports that a stop has been reached. -/
theorem Halts.by (hp : Halts call p) (hf : ∀ a, keepingClosed.By call (f a))
    (ho : ∀ a, Objects call (f a)) : keepingClosed.By call (p >>= f) := by
  intro s
  rw [run_bind]
  generalize (p.run call s).1 = a, hat : (p.run call s).2 = t
  have hst : s.ClosesOrStops t := hat ▸ hp s
  by_cases ht : t.AtStop
  · exact fun hu => absurd hu (ho a t ht)
  · exact keepingClosed.trans (hst.rel ht) (hf a t)

theorem Halts.ite {c : Prop} [Decidable c] {q : Parser α} (hp : Halts call p)
    (hq : Halts call q) : Halts call (if c then p else q) := by
  split
  · exact hp
  · exact hq

theorem Halts.node {k : NodeKind} (hk : k ≠ .expr) (hp : Halts call p) :
    Halts call (node k p) := by
  intro s hr
  rw [run_node] at hr ⊢
  obtain ⟨hs, hclosed⟩ := hp (s.start false) hr
  refine ⟨hs, fun hbefore => (hclosed (hbefore.start false)).imp_left fun hinside => ?_⟩
  exact hbefore.finish hinside fun k' hk' hexpr => absurd (Option.some.inj hk' ▸ hexpr) hk

/-- Rounds that go on have closed what they opened. -/
theorem Halts.repeating {body : Parser Bool} (hbody : Halts call body)
    (hon : ∀ s : State, (body.run call s).1 = true → keepingClosed.rel s (body.run call s).2) :
    Halts call (repeating body) := by
  intro s
  rw [run_repeating]
  generalize s.left + 1 = n
  induction n generalizing s with
  | zero => exact State.closesOrStops_of_rel (keepingClosed.refl s)
  | succ n ih =>
    rw [roundsOf]
    split
    · next hgo => exact .of_rel (hon s hgo) (ih _)
    · exact hbody s

theorem idles_pure {a : α} : Idles call (pure a) a := fun _ _ => rfl

theorem idles_eat {k : TokenKind} (he : k ≠ .eof) (hb : k ≠ .rBrace) :
    Idles call (eat k) false := by
  intro s hs
  rw [eat, run_sees_bind, hs.kind_ne he hb]
  rfl

theorem Idles.waits {a : α} (h : Idles call p a) : Waits call p := by
  intro s hs _
  rwa [h s hs]

theorem Idles.bind_waits {a : α} (hp : Idles call p a) (hf : Waits call (f a)) :
    Waits call (p >>= f) := by
  intro s hs
  rw [run_bind_of_run (hp s hs)]
  exact hf s hs

theorem Idles.bind_objects {a : α} (hp : Idles call p a) (hf : Objects call (f a)) :
    Objects call (p >>= f) := by
  intro s hs
  rw [run_bind_of_run (hp s hs)]
  exact hf s hs

theorem Objects.bind (hp : Objects call p) (hf : ∀ a, keepingClosed.By call (f a)) :
    Objects call (p >>= f) := by
  intro s hs hr
  rw [run_bind] at hr
  exact hp s hs (hf _ _ hr).1

theorem objects_expect {k : TokenKind} {p : Problem} (he : k ≠ .eof) (hb : k ≠ .rBrace) :
    Objects call (expect k p) := by
  intro s hs
  rw [expect, run_bind_of_run (idles_eat he hb s hs)]
  exact List.cons_ne_nil _ _

theorem objects_require {k : TokenKind} {p : Problem} (he : k ≠ .eof) (hb : k ≠ .rBrace) :
    Objects call (require k p) :=
  (objects_expect he hb).bind fun _ => .pure

/-! ### Lists -/

/-- An element and the comma behind it. -/
theorem Halts.eat_comma {element : Parser Bool} (h : Halts call element) :
    Halts call (do if ← element then eat .comma else pure false) := by
  have heat : keepingClosed.By call (eat .comma) :=
    .bind (p := sees .comma) keepingClosed.refl fun _ =>
      .ite (.bind keepingClosed.consume fun _ => .pure) .pure
  refine .bind h (fun went => .of_by (.ite heat .pure)) fun went => ?_
  cases went with
  | true => exact (idles_eat (by decide) (by decide)).waits
  | false => exact idles_pure.waits

/-- Where there is a comma no stop has been reached. -/
theorem Halts.rel_comma {element : Parser Bool} (h : Halts call element) {s : State}
    (hgo : ((do if ← element then eat .comma else pure false).run call s).1 = true) :
    keepingClosed.rel s
      ((do if ← element then eat .comma else pure false : Parser Bool).run call s).2 := by
  rw [run_bind] at hgo ⊢
  generalize (element.run call s).1 = went, ht : (element.run call s).2 = t at hgo ⊢
  have hst : s.ClosesOrStops t := ht ▸ h s
  cases went with
  | false => exact absurd hgo Bool.false_ne_true
  | true =>
    rw [if_pos rfl, eat, run_sees_bind] at hgo ⊢
    cases hcomma : t.view.kind == .comma with
    | false => rw [hcomma] at hgo; exact absurd hgo Bool.false_ne_true
    | true =>
      have hstop : ¬ t.AtStop := fun hstop =>
        Bool.noConfusion ((hstop.kind_ne (by decide) (by decide)).symm.trans hcomma)
      exact keepingClosed.trans (hst.rel hstop) (keepingClosed.consume t)

theorem Halts.separated {element : Parser Bool} (h : Halts call element) :
    Halts call (separated element) :=
  .repeating h.eat_comma fun _ => h.rel_comma

theorem Halts.separatedUntil {closer : TokenKind} {element : Parser Bool}
    (h : Halts call element) : Halts call (separatedUntil closer element) := by
  refine .repeating (fun s => ?_) fun s hgo => ?_
  · rw [run_view_bind, run_ite]
    split
    · exact State.closesOrStops_of_rel (keepingClosed.refl s)
    · exact h.eat_comma s
  · rw [run_view_bind, run_ite] at hgo ⊢
    split at hgo
    · exact nomatch hgo
    · next hnot =>
      rw [if_neg hnot]
      exact h.rel_comma hgo

end Parser

end SwiftOutline
