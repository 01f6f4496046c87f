/-
  SwiftOutline.Proofs.Events.Stream

  The events of every text are well-formed, and reading them gives the tree of the
  text. Writing and reading go through: no index is out of range, no offset is
  negative and no node is finished that is not open. A place that is still held
  when parsing ends was held for a node that came to nothing.
-/
import Mathlib.Data.List.Basic
import SwiftOutline.Grammar.Event
import SwiftOutline.Proofs.Events.Balance
import SwiftOutline.Proofs.Events.Written

namespace SwiftOutline

namespace Event

/-- Linking holds no places. -/
theorem link_placeholder {outer current i : Nat} {events linked : List Event}
    (h : link outer current events = some linked) (hi : linked[i]? = some .placeholder) :
    events[i]? = some .placeholder := by
  fun_induction link outer current events with
  | case1 current hlt k he houter =>
    obtain rfl := Option.some.inj h
    rw [List.getElem?_set] at hi
    split at hi
    · cases hi
    · exact hi
  | case2 => cases h
  | case3 current hlt k d he hd ih => exact ih h
  | case4 => cases h
  | case5 => exact Option.some.inj h ▸ hi
  | case6 => cases h

theorem named_ne_placeholder (k : NodeKind) (e : Event) : named k e ≠ .placeholder := by
  cases e <;> simp [named]

end Event

namespace Writer

open Event

variable {w w' marked closed : Writer} {adopt : Bool} {kind? : Option NodeKind}

/-- Between one state and a later one no places are held that have not been given up. -/
structure Keeps (w w' : Writer) : Prop where
  abandoned : ∀ i ∈ w.abandoned, i ∈ w'.abandoned
  placeholders : ∀ i, w'.events[i]? = some .placeholder →
    i ∈ w'.abandoned ∨ w.events[i]? = some .placeholder

theorem Keeps.refl (w : Writer) : Keeps w w := ⟨fun _ => id, fun _ => .inr⟩

theorem Keeps.trans {w'' : Writer} (h : Keeps w w') (h' : Keeps w' w'') : Keeps w w'' := by
  refine ⟨fun i hi => h'.abandoned i (h.abandoned i hi), fun i hi => ?_⟩
  rcases h'.placeholders i hi with hmem | hi'
  · exact .inl hmem
  · exact (h.placeholders i hi').imp_left (h'.abandoned i)

theorem keeps_push {e : Event} (he : e ≠ .placeholder) : Keeps w (w.push e) := by
  refine ⟨fun _ => id, fun i hi => .inr ?_⟩
  rw [push, List.getElem?_append] at hi
  split at hi
  · exact hi
  · exact absurd (List.mem_singleton.mp (List.mem_of_getElem? hi)).symm he

theorem keeps_consume : Keeps w w.consume := by
  unfold consume
  split
  · exact .refl w
  · next l ls _ =>
    split
    · exact .refl w
    · have hpush : Keeps w (w.push (.token l.kind)) := keeps_push nofun
      exact ⟨hpush.abandoned, hpush.placeholders⟩

/-- The only place that is new is the one behind all events. -/
theorem mark_placeholder (h : w.mark adopt = some marked) {i : Nat}
    (hi : marked.events[i]? = some .placeholder) :
    i = w.events.length ∨ w.events[i]? = some .placeholder := by
  have hpush : (w.push .placeholder).events[i]? = some .placeholder := by
    unfold mark at h
    split at h
    · obtain ⟨c, -, hprecede⟩ := Option.bind_eq_some_iff.mp h
      obtain ⟨linked, hlink, rfl⟩ := Option.map_eq_some_iff.mp hprecede
      exact link_placeholder hlink hi
    · exact Option.some.inj h ▸ hi
  rw [push, List.getElem?_append] at hpush
  split at hpush
  · exact .inr hpush
  · next hlt =>
    have hsingle := (List.getElem?_eq_some_iff.mp hpush).1
    rw [List.length_singleton] at hsingle
    exact .inl (by omega)

theorem mark_abandoned (h : w.mark adopt = some marked) : marked.abandoned = w.abandoned := by
  unfold mark at h
  split at h
  · obtain ⟨c, -, hprecede⟩ := Option.bind_eq_some_iff.mp h
    obtain ⟨linked, -, rfl⟩ := Option.map_eq_some_iff.mp hprecede
    rfl
  · exact Option.some.inj h ▸ rfl

/-- When a node ends, its place is taken by its start, or given up. -/
theorem keeps_close {pos : Nat} (h : w.close pos kind? = some closed) :
    (∀ i ∈ w.abandoned, i ∈ closed.abandoned) ∧
      ∀ i, closed.events[i]? = some .placeholder →
        i ∈ closed.abandoned ∨ i ≠ pos ∧ w.events[i]? = some .placeholder := by
  cases kind? with
  | some k =>
    obtain rfl := Option.some.inj h
    refine ⟨fun _ => id, fun i hi => .inr ?_⟩
    rw [complete, List.getElem?_append] at hi
    split at hi
    · rw [List.getElem?_modify] at hi
      obtain ⟨e, he, hnamed⟩ := Option.map_eq_some_iff.mp hi
      split at hnamed
      · exact absurd hnamed (named_ne_placeholder k e)
      · next hne => exact ⟨Ne.symm hne, hnamed ▸ he⟩
    · cases List.mem_singleton.mp (List.mem_of_getElem? hi)
  | none =>
    rw [close, abandon] at h
    split at h
    · cases h
    · obtain rfl := Option.some.inj h
      refine ⟨fun i hi => List.mem_cons_of_mem _ hi, fun i hi => ?_⟩
      by_cases hpos : i = pos
      · exact .inl (hpos ▸ List.mem_cons_self)
      · refine .inr ⟨hpos, ?_⟩
        dsimp only at hi
        split at hi
        · rw [List.getElem?_dropLast] at hi
          split at hi
          · exact hi
          · cases hi
        · exact hi

theorem keeps_group (hmark : w.mark adopt = some marked) (hbody : Keeps marked w')
    (hclose : w'.close w.events.length kind? = some closed) : Keeps w closed := by
  obtain ⟨habandoned, hplaceholders⟩ := keeps_close hclose
  refine ⟨fun i hi => habandoned i (hbody.abandoned i (mark_abandoned hmark ▸ hi)), fun i hi => ?_⟩
  rcases hplaceholders i hi with hmem | ⟨hne, hi'⟩
  · exact .inl hmem
  · rcases hbody.placeholders i hi' with hmem | hi''
    · exact .inl (habandoned i hmem)
    · exact .inr ((mark_placeholder hmark hi'').resolve_left hne)

end Writer

namespace Parser

open Writer

variable {α σ : Type} {call : Rule → Writer → Option (Bool × Writer)}

theorem keeps_writeRounds {round : σ → Writer → Option (Step σ × Writer)}
    (hround : ∀ a w r, round a w = some r → Writer.Keeps w r.2) (n : Nat) (a : σ) {w : Writer}
    {r : σ × Writer} (h : writeRounds round n a w = some r) : Writer.Keeps w r.2 := by
  induction n generalizing a w with
  | zero => exact Option.some.inj h ▸ .refl w
  | succ n ih =>
    obtain ⟨x, hx, hrest⟩ := Option.bind_eq_some_iff.mp h
    have hfirst := hround a w x hx
    obtain ⟨step, w'⟩ := x
    cases step with
    | stop b => exact Option.some.inj hrest ▸ hfirst
    | again b => exact hfirst.trans (ih b hrest)

/-- Whatever a program does, no place is held in the end that has not been given up. -/
theorem keeps_write (hcall : ∀ r w x, call r w = some x → Writer.Keeps w x.2) {p : Parser α}
    {w : Writer} {r : α × Writer} (h : p.write call w = some r) : Writer.Keeps w r.2 := by
  induction p generalizing w with
  | done a => exact Option.some.inj h ▸ .refl w
  | look next ih => exact ih w.view h
  | consume next ih => exact keeps_consume.trans (ih h)
  | complain p next ih =>
    have hcomplain : Writer.Keeps w (w.complain p) := ⟨fun _ => id, fun _ => .inr⟩
    exact hcomplain.trans (ih h)
  | group adopt body next ihb ihn =>
    obtain ⟨marked, hmark, h⟩ := Option.bind_eq_some_iff.mp h
    obtain ⟨x, hbody, h⟩ := Option.bind_eq_some_iff.mp h
    obtain ⟨closed, hclose, h⟩ := Option.bind_eq_some_iff.mp h
    exact (keeps_group hmark (ihb hbody) hclose).trans (ihn _ h)
  | directive body next ihb ihn =>
    obtain ⟨x, hbody, h⟩ := Option.bind_eq_some_iff.mp h
    -- the number of open blocks has no part in the events
    have hkept := ihb hbody
    have hblocks : Writer.Keeps w (x.2.withDirectives w.view.directives) :=
      ⟨hkept.abandoned, hkept.placeholders⟩
    exact hblocks.trans (ihn _ h)
  | call rule next ih =>
    obtain ⟨x, hx, h⟩ := Option.bind_eq_some_iff.mp h
    exact (hcall rule w x hx).trans (ih _ h)
  | loop round init next ihr ihn =>
    obtain ⟨x, hx, h⟩ := Option.bind_eq_some_iff.mp h
    exact (keeps_writeRounds (fun a _ _ => ihr a) _ init hx).trans (ihn _ h)

end Parser

namespace Grammar

theorem keeps_writeRule (depth : Nat) (r : Rule) (w : Writer) (x : Bool × Writer)
    (h : writeRule depth r w = some x) : Writer.Keeps w x.2 := by
  induction depth generalizing r w x with
  | zero => exact Option.some.inj h ▸ .refl w
  | succ depth ih => exact Parser.keeps_write ih h

end Grammar

/-- All placeholders in the events of a text are places that were given up. -/
theorem mem_abandoned_of_placeholder {tokens : List Token} {w : Writer}
    (h : writeTokens tokens = some w) {i : Nat} (hi : w.events[i]? = some .placeholder) :
    i ∈ w.abandoned := by
  obtain ⟨r, hwrite, rfl⟩ := Option.map_eq_some_iff.mp h
  have hkept := (Parser.keeps_write (Grammar.keeps_writeRule _) hwrite).trans
    (Writer.keeps_push (e := .finish) nofun)
  refine (hkept.placeholders i hi).resolve_right fun hinitial => ?_
  have hsingle := List.mem_singleton.mp (List.mem_of_getElem? hinitial)
  cases hsingle

open SwiftOutline.Event (Points StartsAt Records)

namespace Sink

variable {es : List Event} {ts : List Tree}

/-- The first event of a root opens it. -/
theorem step_root (es : List Event) (tokens : List Token) :
    (initial (.start .sourceFile none :: es) tokens).step 0 =
      some ⟨.placeholder :: es, tokens, 1, [.startNode .sourceFile]⟩ := by
  have hstep := step_eq [] es (.start .sourceFile none) tokens 0 []
  have hparents : ∀ events i, Event.parents events i none = some ([], events) := by
    intro events i
    rw [Event.parents]
  simp only [hparents, Option.map_some, startNodes_eq, Nat.lt_irrefl, if_false] at hstep
  exact hstep

/-- The events of a root tell a builder its tree, with all trivia of the text. -/
theorem steps_root (h : Records es ts) (tokens : List Token) :
    ∃ last, steps (es.length + 2) 0
        (.initial (.start .sourceFile none :: (es ++ [Event.finish])) tokens) = some last ∧
      last.calls = (Tree.rootWithTrivia ts.reverse tokens).calls := by
  obtain ⟨front, hlength, hinside⟩ := tells_of_records 1 Nat.one_pos tokens h [.placeholder]
    [Event.finish] [Call.startNode .sourceFile]
  have hlast := step_eq front [] .finish (Tree.weaveForest ts.reverse tokens).2 1
    ([Call.startNode .sourceFile] ++ Tree.forestCalls (Tree.weaveForest ts.reverse tokens).1)
  rw [List.length_singleton] at hlength hinside
  rw [hlength] at hlast
  rw [steps, step_root, Option.bind_some, Nat.zero_add, steps_add es.length 1,
    ← List.singleton_append, ← List.append_assoc, hinside, Option.bind_some, steps, hlast, Option.bind_some]
  refine ⟨_, rfl, ?_⟩
  simp [finishNode, eatTrivia, Tree.rootWithTrivia, Tree.calls]

/-- No node is open before the root and behind it, and the root is open in between. -/
theorem depth_eq_zero_iff {k : NodeKind} {tokens : List Token} {last s : Sink} {i : Nat}
    (hread : steps (es.length + 2) 0
      (.initial (.start .sourceFile none :: (es ++ [Event.finish])) tokens) = some last)
    (hlast : Balanced (.start .sourceFile none :: (es ++ [Event.finish])) (es.length + 2) last)
    (hcalls : last.calls = (Tree.node k ts).calls)
    (hs : steps i 0 (.initial (.start .sourceFile none :: (es ++ [Event.finish])) tokens) = some s)
    (htold : s.calls <+: last.calls)
    (hbalanced : Balanced (.start .sourceFile none :: (es ++ [Event.finish])) i s)
    (hi : i ≤ es.length + 2) : s.depth = 0 ↔ i = 0 ∨ i = es.length + 2 := by
  have hdepth := hbalanced.depth
  rw [hcalls] at htold
  rcases Nat.eq_zero_or_pos i with rfl | hpos
  · obtain rfl := Option.some.inj hs
    simp [initial]
  · rcases Nat.lt_or_eq_of_le hi with hlt | rfl
    · -- something has been told of the root, but not its end
      have hne : s.calls ≠ [] := by
        obtain ⟨n, rfl⟩ : ∃ n, i = n + 1 := ⟨i - 1, by omega⟩
        rw [steps, step_root, Option.bind_some] at hs
        intro hnil
        have hbegun := prefix_of_steps hs
        rw [hnil] at hbegun
        simp at hbegun
      have hall : s.calls ≠ (Tree.node k ts).calls := by
        intro heq
        have hends := hbalanced.finished
        rw [heq, ← hcalls, hlast.finished] at hends
        have hread : List.take i (.start .sourceFile none :: (es ++ [Event.finish])) =
            List.take i (.start .sourceFile none :: es) := by
          rw [← List.cons_append, List.take_append_of_le_length (by simp; omega)]
        have hmost : (List.take i (.start .sourceFile none :: es)).countP Event.isFinish ≤
            (Event.start .sourceFile none :: es).countP Event.isFinish :=
          (List.take_sublist i _).countP_le
        rw [hread, List.take_of_length_le (by simp), ← List.cons_append,
          List.countP_append] at hends
        simp only [List.countP_singleton, Event.isFinish, if_true] at hends
        omega
      have hopen := Tree.countP_lt_of_prefix_calls htold hne hall
      constructor
      · intro hzero
        omega
      · intro hends
        omega
    · obtain rfl := Option.some.inj (hs.symm.trans hread)
      rw [hcalls, Tree.countP_calls] at hdepth
      omega

end Sink

/-! ## Every text -/

/-- What is to be expected of the events of a text. -/
structure Writer.WellFormed (tokens : List Token) (w : Writer) : Prop where
  /-- The first event opens the root and the last one ends it. What stands between them records what
      parsing builds, where a node that was put around another one has that as its first child. -/
  root : ∃ es, w.events = .start .sourceFile none :: (es ++ [.finish]) ∧
    Records es (finalState tokens).built
  /-- Links lead forward to starts, and no two to the same. -/
  sound : Event.Sound w.events
  /-- Every start leads to one that has no link. -/
  outermost : ∀ i, StartsAt w.events i → ∃ j k, Relation.ReflTransGen (Points w.events) i j ∧
    w.events[j]? = some (.start k none)
  /-- A place that is still held was given up. -/
  held : ∀ i, w.events[i]? = some .placeholder → i ∈ w.abandoned
  /-- Wherever reading has come to, the nodes of each chain have been opened if the innermost start
      has been read, every end that was read has ended one of them, and the others are open: none
      before the first event and behind the last, and some in between. -/
  balanced : ∀ i ≤ w.events.length, ∃ s, Sink.steps i 0 (.initial w.events tokens) = some s ∧
    Sink.Balanced w.events i s ∧ (s.depth = 0 ↔ i = 0 ∨ i = w.events.length)
  /-- Reading the events builds the tree of the text. -/
  tree : (Sink.read w.events tokens).bind Tree.ofCalls? = some (parseTokens tokens).tree
  /-- The problems are those of the text. -/
  reports : w.reports = (finalState tokens).reports

/-- Every text has a well-formed stream of events. -/
theorem writeTokens_wellFormed (tokens : List Token) :
    ∃ w, writeTokens tokens = some w ∧ w.WellFormed tokens := by
  obtain ⟨w, es, hwrite, hevents, hrec, hreports⟩ := exists_writeTokens_eq tokens
  have hsound : Event.Sound w.events := by
    rw [hevents, ← List.singleton_append]
    exact (Event.Sound.single (by simp)).append (hrec.sound.append (.single (by simp)))
  have hlength : w.events.length = es.length + 2 := by simp [hevents]
  obtain ⟨last, hsteps, hcalls⟩ := Sink.steps_root hrec tokens
  have hcount : ∀ first, first <+: last.calls →
      first.countP Call.isFinish ≤ first.countP Call.isStart := fun first hfirst =>
    Tree.countP_le_of_prefix_calls (hcalls ▸ hfirst)
  have hread := hsteps
  rw [← hevents, ← hlength] at hread
  have hbalanced := Sink.exists_balanced hsound hread hcount
  refine ⟨w, hwrite, ⟨es, hevents, hrec⟩, hsound, fun i hi => hsound.exists_outermost hi,
    fun i hi => mem_abandoned_of_placeholder hwrite hi, fun i hi => ?_, ?_, hreports⟩
  · obtain ⟨s, hs, htold, hbal⟩ := hbalanced i hi
    obtain ⟨s', hs', -, hend⟩ := hbalanced _ (Nat.le_refl _)
    obtain rfl := Option.some.inj (hread.symm.trans hs')
    refine ⟨s, hs, hbal, ?_⟩
    rw [hlength] at hi hend ⊢
    rw [hevents] at hs hbal hend
    exact Sink.depth_eq_zero_iff hsteps hend hcalls hs htold hbal hi
  · rw [Sink.read, hread, Option.map_some, Option.bind_some, hcalls]
    exact Tree.ofCalls?_calls _ _

end SwiftOutline
