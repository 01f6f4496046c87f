/-
  SwiftOutline.Proofs.Parser.Passes

  Which lexemes a program leaves, in whatever state it is run and whatever the
  rules do: a judgement for programs that follow no rule, or none where they are
  run. It is told from what is ahead alone, so it is comparable to looking ahead.
-/
import SwiftOutline.Proofs.Parser.Reads
import SwiftOutline.Proofs.Parser.Wlp

namespace SwiftOutline

namespace Parser

variable {α β : Type} {call : Rule → State → Bool × State} {p : Parser α} {q : Parser Bool} {a : α}
  {b : β} {f : α → Parser β} {ls ms rest : List Lexeme} {l : Lexeme} {k : TokenKind} {s : State}

/-- In every state with the lexemes `ls` ahead, `p` comes to `a` and leaves `rest`: in a run, and
    wherever it may end. -/
structure Passes (call : Rule → State → Bool × State) (p : Parser α) (a : α)
    (ls rest : List Lexeme) : Prop where
  runs : ∀ s : State, s.view.lexemes = ls →
    (p.run call s).1 = a ∧ (p.run call s).2.view.lexemes = rest
  ends : ∀ (G : Outcomes) (s : State), s.view.lexemes = ls →
    wlp G p (fun b t => b = a ∧ t.view.lexemes = rest) s

namespace Passes

theorem exists_run (h : Passes call p a ls rest) (hs : s.view.lexemes = ls) :
    ∃ t, p.run call s = (a, t) ∧ t.view.lexemes = rest :=
  ⟨_, Prod.ext (h.runs s hs).1 rfl, (h.runs s hs).2⟩

theorem lexemes_eq (h : Passes call p a s.view.lexemes rest) :
    (p.run call s).2.view.lexemes = rest :=
  (h.runs s rfl).2

theorem pure : Passes call (Pure.pure a) a ls ls :=
  ⟨fun _ hs => ⟨rfl, hs⟩, fun _ _ hs => ⟨rfl, hs⟩⟩

theorem bind (hp : Passes call p a ls ms) (hf : Passes call (f a) b ms rest) :
    Passes call (p >>= f) b ls rest := by
  refine ⟨fun s hs => ?_, fun G s hs => ?_⟩
  · obtain ⟨ha, hms⟩ := hp.runs s hs
    rw [run_bind, ha]
    exact hf.runs _ hms
  · refine wlp_bind (wlp_mono (fun x t ht => ?_) (hp.ends G s hs))
    obtain ⟨rfl, hms⟩ := ht
    exact hf.ends G t hms

/-! ### Looking -/

theorem view {f : View → Parser α}
    (h : ∀ v : View, v.lexemes = ls → Passes call (f v) a ls rest) :
    Passes call (view >>= f) a ls rest :=
  ⟨fun s hs => (h s.view hs).runs s hs, fun G s hs => (h s.view hs).ends G s hs⟩

theorem kind {f : TokenKind → Parser α} (h : Passes call (f (Lookahead.headKind ls)) a ls rest) :
    Passes call (kind >>= f) a ls rest :=
  .view fun v hv => by rw [View.kind_eq, hv]; exact h

theorem sees {f : Bool → Parser α} (h : Passes call (f (Lookahead.headKind ls == k)) a ls rest) :
    Passes call (sees k >>= f) a ls rest :=
  .view fun v hv => by rw [View.kind_eq, hv]; exact h

theorem seesJoined {f : Bool → Parser α} (hk : k ≠ .eof)
    (h : Passes call (f (Lookahead.seesJoined k ls)) a ls rest) :
    Passes call (seesJoined k >>= f) a ls rest :=
  .view fun v hv => by rw [View.seesJoined_eq hk, hv]; exact h

/-! ### Consuming -/

theorem bump (hl : l.kind ≠ .eof) : Passes call bump () (l :: ls) ls := by
  have hconsume : ∀ s : State, s.view.lexemes = l :: ls → s.consume.view.lexemes = ls := by
    intro s hs
    rw [State.consume, hs]
    simp [hl]
  exact ⟨fun s hs => ⟨rfl, hconsume s hs⟩, fun _ s hs => ⟨rfl, hconsume s hs⟩⟩

theorem report {problem : Problem} : Passes call (report problem) () ls ls :=
  ⟨fun _ hs => ⟨rfl, hs⟩, fun _ _ hs => ⟨rfl, hs⟩⟩

theorem eat (hl : l.kind = k) (hk : k ≠ .eof) : Passes call (eat k) true (l :: ls) ls := by
  refine .sees ?_
  rw [Lookahead.headKind, hl, beq_self_eq_true, if_pos rfl]
  exact (bump fun h => hk (hl.symm.trans h)).bind .pure

theorem eat_not (hk : Lookahead.headKind ls ≠ k) : Passes call (Parser.eat k) false ls ls := by
  refine .sees ?_
  rw [if_neg (by simpa using hk)]
  exact .pure

theorem require {problem : Problem} (hl : l.kind = k) (hk : k ≠ .eof) :
    Passes call (require k problem) () (l :: ls) ls := by
  refine .bind (a := true) (.bind (a := true) (eat hl hk) ?_) .pure
  exact .pure

/-! ### Nodes -/

theorem node {k : NodeKind} (h : Passes call p a ls rest) :
    Passes call (node k p) a ls rest := by
  refine ⟨fun s hs => ?_, fun G s hs => wlp_andThen (h.ends G (s.start false) hs)⟩
  rw [run_node]
  exact h.runs (s.start false) hs

/-! ### Repetitions -/

/-- A way through the lexemes in rounds of `q`, each of which leaves less than it has found. -/
inductive Rounds (call : Rule → State → Bool × State) (q : Parser Bool) :
    List Lexeme → List Lexeme → Prop where
  | stop {ls rest : List Lexeme} (h : Passes call q false ls rest) : Rounds call q ls rest
  | again {ls ms rest : List Lexeme} (h : Passes call q true ls ms)
      (eaten : ms.length < ls.length) (h' : Rounds call q ms rest) : Rounds call q ls rest

theorem repeating (h : Rounds call q ls rest) : Passes call (repeating q) () ls rest := by
  have hrounds : ∀ n, ls.length < n → ∀ s : State, s.view.lexemes = ls →
      (roundsOf (q.run call) n s).view.lexemes = rest := by
    induction h with
    | stop h =>
      intro n hn s hs
      obtain ⟨m, rfl⟩ := Nat.exists_eq_add_one.mpr (Nat.zero_lt_of_lt hn)
      obtain ⟨hstop, hrest⟩ := h.runs s hs
      rw [roundsOf, hstop]
      exact hrest
    | again h eaten _ ih =>
      intro n hn s hs
      obtain ⟨m, rfl⟩ := Nat.exists_eq_add_one.mpr (Nat.zero_lt_of_lt hn)
      obtain ⟨hagain, hms⟩ := h.runs s hs
      rw [roundsOf, hagain]
      exact ih m (by omega) _ hms
  refine ⟨fun s hs => ?_, fun G s hs => ?_⟩
  · rw [run_repeating]
    exact ⟨rfl, hrounds _ (by rw [State.left, hs]; exact Nat.lt_succ_self _) s hs⟩
  · refine wlp_mono (fun _ t ht => ⟨rfl, ht⟩) (wlp_repeating
      (I := fun t => Rounds call q t.view.lexemes rest) (hs ▸ h) fun t ht => ?_)
    generalize hms : t.view.lexemes = ms at ht
    cases ht with
    | stop h => exact wlp_mono (fun b u hu => by rw [hu.1]; exact hu.2) (h.ends G t hms)
    | again h _ h' => exact wlp_mono (fun b u hu => by rw [hu.1, hu.2]; exact h') (h.ends G t hms)

/-- A repetition passes what looking ahead skips step by step, if each of its rounds does. -/
theorem repeating_skipMany {skip : List Lexeme → Option (List Lexeme)}
    (hskip : ∀ ls rest, skip ls = some rest → rest.length < ls.length)
    (hround : ∀ ls rest, skip ls = some rest → Passes call q true ls rest)
    (hstop : ∀ ls, skip ls = none → Passes call q false ls ls) {n : Nat} (hn : ls.length ≤ n) :
    Passes call (Parser.repeating q) () ls (Lookahead.skipMany skip n ls) := by
  refine repeating ?_
  induction n generalizing ls with
  | zero =>
    obtain rfl := List.length_eq_zero_iff.mp (Nat.le_zero.mp hn)
    refine .stop (hstop [] ?_)
    cases h : skip [] with
    | none => rfl
    | some rest => exact absurd (hskip [] rest h) (Nat.not_lt_zero _)
  | succ n ih =>
    rw [Lookahead.skipMany]
    cases h : skip ls with
    | none => exact .stop (hstop ls h)
    | some rest =>
      have hlt := hskip ls rest h
      exact .again (hround ls rest h) hlt (ih (by omega))

end Passes

end Parser

end SwiftOutline
