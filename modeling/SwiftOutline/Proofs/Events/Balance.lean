/-
  SwiftOutline.Proofs.Events.Balance

  What one event changes while a stream is read. Every start is opened once, at
  its own place or at that of the innermost node of its chain, and every end of a
  node is told when it is reached.
-/
import Mathlib.Data.Set.Card
import SwiftOutline.Proofs.Events.Read

namespace SwiftOutline

namespace Event

variable {events taken : List Event} {i j : Nat}

/-! ## Starts that are taken out -/

/-- The starts of the nodes around the one that is opened at `i`, its own among them. -/
def Leads (events : List Event) : Nat → Nat → Prop := Relation.ReflTransGen (Points events)

/-- The start at `j` belongs to a chain whose innermost start is among the first `i` events. -/
def Reached (events : List Event) (i j : Nat) : Prop := ∃ first < i, Leads events first j

theorem points_iff {k : NodeKind} {parent? : Option Nat}
    (h : events[i]? = some (.start k parent?)) :
    Points events i j ↔ ∃ d, parent? = some d ∧ j = i + d := by
  constructor
  · rintro ⟨k', d, hd, rfl⟩
    rw [h] at hd
    exact ⟨d, (Event.start.inj (Option.some.inj hd)).2, rfl⟩
  · rintro ⟨d, rfl, rfl⟩
    exact ⟨k, d, h, rfl⟩

/-- The node around the one at `i` and all around that one. -/
theorem leads_iff (h : ∀ x, Points events i x ↔ x = j) {x : Nat} :
    Leads events i x ↔ x = i ∨ Leads events j x := by
  rw [Leads, Relation.ReflTransGen.cases_head_iff]
  constructor
  · rintro (rfl | ⟨y, hy, hpath⟩)
    · exact .inl rfl
    · exact .inr ((h y).mp hy ▸ hpath)
  · rintro (rfl | hpath)
    · exact .inl rfl
    · exact .inr ⟨j, (h j).mpr rfl, hpath⟩

theorem reached_succ : Reached events (i + 1) j ↔ Reached events i j ∨ Leads events i j := by
  constructor
  · rintro ⟨first, hlt, hpath⟩
    rcases Nat.lt_succ_iff_lt_or_eq.mp hlt with hlt | rfl
    · exact .inl ⟨first, hlt, hpath⟩
    · exact .inr hpath
  · rintro (⟨first, hlt, hpath⟩ | hpath)
    · exact ⟨first, Nat.lt_succ_of_lt hlt, hpath⟩
    · exact ⟨i, Nat.lt_succ_self i, hpath⟩

/-- How many nodes the first `i` events open, if each chain is opened as a whole where its innermost
    node is. -/
noncomputable def openedBy (events : List Event) (i : Nat) : Nat :=
  {j | StartsAt events j ∧ Reached events i j}.ncard

theorem finite_startsAt (events : List Event) : {j | StartsAt events j}.Finite :=
  (Set.finite_lt_nat events.length).subset fun _ => StartsAt.lt_length

theorem startsAt_concat (events : List Event) (e : Event) :
    StartsAt (events ++ [e]) j ↔ StartsAt events j ∨ j = events.length ∧ e.isStart = true := by
  constructor
  · rintro ⟨k, parent?, he⟩
    rcases Nat.lt_trichotomy j events.length with hlt | rfl | hgt
    · rw [List.getElem?_append_left hlt] at he
      exact .inl ⟨k, parent?, he⟩
    · obtain rfl := Option.some.inj (List.getElem?_concat_length.symm.trans he)
      exact .inr ⟨rfl, rfl⟩
    · rw [List.getElem?_eq_none (by simpa using hgt)] at he
      cases he
  · rintro (hj | ⟨rfl, hstart⟩)
    · exact hj.append
    · cases e with
      | start k parent? => exact ⟨k, parent?, List.getElem?_concat_length⟩
      | _ => cases hstart

/-- Counting starts is counting their places. -/
theorem countP_isStart (events : List Event) :
    events.countP isStart = {j | StartsAt events j}.ncard := by
  induction events using List.reverseRecOn with
  | nil => simp [StartsAt]
  | append_singleton events e ih =>
    simp only [List.countP_append, List.countP_singleton, ih, startsAt_concat]
    cases e.isStart with
    | false => simp
    | true =>
      have hnew : events.length ∉ {j | StartsAt events j} := fun h =>
        Nat.lt_irrefl _ (StartsAt.lt_length h)
      rw [if_pos rfl, ← Set.ncard_insert_of_notMem hnew (finite_startsAt events)]
      congr 1
      ext j
      simp [or_comm]

/-- From `i` on, `taken` has the same events, but for the starts in `R`, which are taken out. -/
def Without (events taken : List Event) (i : Nat) (R : Nat → Prop) : Prop :=
  ∀ j, i ≤ j → taken[j]? = events[j]? ∧ ¬ R j ∨
    StartsAt events j ∧ taken[j]? = some .placeholder ∧ R j

variable {R R' : Nat → Prop}

theorem Without.congr (h : Without events taken i R) (hR : ∀ x, R x ↔ R' x) :
    Without events taken i R' := by
  obtain rfl : R = R' := funext fun x => propext (hR x)
  exact h

/-- A start is taken out. -/
theorem Without.set (h : Without events taken i R) (hj : StartsAt events j) :
    Without events (taken.set j .placeholder) i fun x => R x ∨ x = j := by
  intro x hle
  rw [List.getElem?_set]
  split
  · next heq =>
    subst heq
    have hlt : j < taken.length := by
      rcases h j hle with ⟨hsame, -⟩ | ⟨-, hsome, -⟩
      · obtain ⟨k, parent?, he⟩ := hj
        exact (List.getElem?_eq_some_iff.mp (hsame.trans he)).1
      · exact (List.getElem?_eq_some_iff.mp hsome).1
    rw [if_pos hlt]
    exact .inr ⟨hj, rfl, .inr rfl⟩
  · next hne =>
    refine (h x hle).imp (fun hx => ⟨hx.1, ?_⟩) fun hx => ⟨hx.1, hx.2.1, .inl hx.2.2⟩
    rintro (hR | rfl)
    · exact hx.2 hR
    · exact hne rfl

/-- What holds behind `j` along all links holds of all that lies around a node behind `j`. -/
theorem of_leads (hsound : Sound events) (hclosed : ∀ x y, R x → x ≠ j → Points events x y → R y)
    {x y : Nat} (hpath : Leads events x y) (hx : R x) (hlt : j < x) : R y ∧ j < y := by
  induction hpath with
  | refl => exact ⟨hx, hlt⟩
  | tail _ hlast ih =>
    have := hsound.forward hlast
    exact ⟨hclosed _ _ ih.1 (by omega) hlast, by omega⟩

/-- With the start at `j`, those of the nodes around it are taken out. -/
theorem without_parents (hsound : Sound events) {parent? : Option Nat}
    {r : List NodeKind × List Event} (h : parents taken j parent? = some r)
    (hlink : ∀ y, Points events j y ↔ ∃ d, parent? = some d ∧ y = j + d) (hle : i ≤ j) (hj : R j)
    (hclosed : ∀ x y, R x → x ≠ j → Points events x y → R y) (hwithout : Without events taken i R) :
    Without events r.2 i fun x => R x ∨ Leads events j x := by
  revert r R
  fun_induction parents taken j parent? with
  | case1 taken j =>
    intro R r h hj hclosed hwithout
    obtain rfl := Option.some.inj h
    refine hwithout.congr fun x => ⟨.inl, ?_⟩
    rintro (hx | hpath)
    · exact hx
    · -- there is no link
      rcases Relation.ReflTransGen.cases_head hpath with rfl | ⟨y, hy, -⟩
      · exact hj
      · obtain ⟨d, hd, -⟩ := (hlink y).mp hy
        cases hd
  | case2 taken j d hlt k parent? he ih =>
    intro R r h hj hclosed hwithout
    obtain ⟨r', hr', rfl⟩ := Option.map_eq_some_iff.mp h
    have hnext : ∀ z, Points events j z ↔ z = j + d := by simpa using hlink
    have hget : taken[j + d]? = some (.start k parent?) := by rw [List.getElem?_eq_getElem hlt, he]
    have hsame : events[j + d]? = some (.start k parent?) := by
      rcases hwithout (j + d) (by omega) with ⟨hsame, -⟩ | ⟨-, hsome, -⟩
      · rw [← hsame, hget]
      · rw [hget] at hsome
        cases hsome
    have hrest := ih (fun y => points_iff hsame) (by omega) hr' (.inr rfl) ?_
      (hwithout.set ⟨k, parent?, hsame⟩)
    · refine hrest.congr fun x => ?_
      rw [leads_iff hnext, or_assoc]
      constructor
      · rintro (hx | rfl | hpath)
        · exact .inl hx
        · exact .inr (.inr .refl)
        · exact .inr (.inr hpath)
      · rintro (hx | rfl | hpath)
        · exact .inl hx
        · exact .inl hj
        · exact .inr (.inr hpath)
    · rintro x y (hx | rfl) hne hpoints
      · by_cases hxj : x = j
        · exact .inr ((hnext y).mp (hxj ▸ hpoints))
        · exact .inl (hclosed x y hx hxj hpoints)
      · exact absurd rfl hne
  | case3 taken j d hlt hne =>
    intro R r h hj hclosed hwithout
    obtain rfl := Option.some.inj h
    have hnext : ∀ z, Points events j z ↔ z = j + d := by simpa using hlink
    have hstart := hsound.startsAt ((hnext _).mpr rfl)
    -- the next start has been taken out, and all behind it
    have htaken : R (j + d) := by
      rcases hwithout (j + d) (by omega) with ⟨hsame, -⟩ | ⟨-, -, hR⟩
      · obtain ⟨k, parent?, he⟩ := hstart
        rw [he, List.getElem?_eq_getElem hlt] at hsame
        exact absurd (Option.some.inj hsame) (hne k parent?)
      · exact hR
    refine (hwithout.set hstart).congr fun x => ?_
    rw [leads_iff hnext]
    constructor
    · rintro (hx | rfl)
      · exact .inl hx
      · exact .inl htaken
    · rintro (hx | rfl | hpath)
      · exact .inl hx
      · exact .inl hj
      · exact .inl (of_leads hsound hclosed hpath htaken (hsound.forward ((hnext _).mpr rfl))).1
  | case4 =>
    intro R r h
    cases h

theorem placeholder_set {x y : Nat} (h : taken[x]? = some .placeholder) :
    (taken.set y .placeholder)[x]? = some .placeholder := by
  rw [List.getElem?_set]
  split
  · next heq => rw [heq, if_pos (List.getElem?_eq_some_iff.mp h).1]
  · exact h

/-- What has been taken out before stays so. -/
theorem placeholder_of_parents {parent? : Option Nat} {r : List NodeKind × List Event}
    (h : parents taken j parent? = some r) {x : Nat} (hx : taken[x]? = some .placeholder) :
    r.2[x]? = some .placeholder := by
  revert r
  fun_induction parents taken j parent? with
  | case1 => exact fun h => Option.some.inj h ▸ hx
  | case2 taken j d hlt k parent? he ih =>
    intro r h
    obtain ⟨r', hr', rfl⟩ := Option.map_eq_some_iff.mp h
    show r'.2[x]? = some .placeholder
    exact ih (placeholder_set hx) hr'
  | case3 => exact fun h => Option.some.inj h ▸ placeholder_set hx
  | case4 => exact nofun

/-- The starts that are taken out are as many as the kinds that are found. -/
theorem countP_of_parents {parent? : Option Nat} {r : List NodeKind × List Event}
    (h : parents taken j parent? = some r) :
    r.1.length + r.2.countP isStart = taken.countP isStart := by
  revert r
  fun_induction parents taken j parent? with
  | case1 => exact fun h => Option.some.inj h ▸ Nat.zero_add _
  | case2 taken j d hlt k parent? he ih =>
    intro r h
    obtain ⟨r', hr', rfl⟩ := Option.map_eq_some_iff.mp h
    have hrest := ih hr'
    have hpos : 0 < taken.countP isStart :=
      List.countP_pos_iff.mpr ⟨taken[j + d], List.getElem_mem hlt, by rw [he]; rfl⟩
    rw [List.countP_set hlt, he] at hrest
    simp only [isStart, if_true, Bool.false_eq_true, if_false, List.length_cons] at hrest ⊢
    omega
  | case3 taken j d hlt hne =>
    intro r h
    obtain rfl := Option.some.inj h
    have hnot : isStart taken[j + d] = false := by
      cases he : taken[j + d] with
      | start k parent? => exact absurd he (hne k parent?)
      | _ => rfl
    rw [List.countP_set hlt, hnot]
    simp [isStart]
  | case4 => exact nofun

end Event

namespace Sink

open Event

variable {events : List Event} {i : Nat} {s s' : Sink}

/-- What holds when the first `i` events have been read. -/
structure Balanced (events : List Event) (i : Nat) (s : Sink) : Prop where
  /-- Those nodes have been opened whose starts belong to a chain with its innermost start among
      these events. -/
  opened : s.calls.countP Call.isStart = Event.openedBy events i
  /-- The ends that have been read have been told. -/
  finished : s.calls.countP Call.isFinish = (events.take i).countP Event.isFinish
  /-- No more nodes have been finished than opened, and the others are open. -/
  depth : s.calls.countP Call.isFinish + s.depth = s.calls.countP Call.isStart

theorem countP_map_token (ts : List Token) (p : Call → Bool) (h : ∀ t, p (.token t) = false) :
    (ts.map Call.token).countP p = 0 := by
  rw [List.countP_eq_zero]
  intro c hc
  obtain ⟨t, -, rfl⟩ := List.mem_map.mp hc
  simp [h]

theorem countP_map_startNode (kinds : List NodeKind) :
    (kinds.map Call.startNode).reverse.countP Call.isStart = kinds.length ∧
      (kinds.map Call.startNode).reverse.countP Call.isFinish = 0 := by
  rw [List.countP_reverse, List.countP_reverse, List.countP_eq_zero]
  refine ⟨?_, fun c hc => ?_⟩
  · rw [List.countP_eq_length.mpr, List.length_map]
    intro c hc
    obtain ⟨k, -, rfl⟩ := List.mem_map.mp hc
    rfl
  · obtain ⟨k, -, rfl⟩ := List.mem_map.mp hc
    exact Bool.false_ne_true

/-- An event that has been read is no start any more. -/
theorem countP_set_placeholder {es : List Event} {e : Event} (he : es[i]? = some e) :
    (es.set i .placeholder).countP Event.isStart + [e].countP Event.isStart =
      es.countP Event.isStart := by
  obtain ⟨hlt, rfl⟩ := List.getElem?_eq_some_iff.mp he
  rw [List.countP_set hlt, List.countP_singleton]
  cases hs : es[i].isStart with
  | false => simp [Event.isStart]
  | true =>
    have hpos : 0 < es.countP Event.isStart := List.countP_pos_iff.mpr ⟨_, List.getElem_mem hlt, hs⟩
    simp only [Event.isStart, if_true, Bool.false_eq_true, if_false]
    omega

/-- Trivia that may come before what an event stands for. -/
theorem exists_eatTrivia (c : Prop) [Decidable c] (s : Sink) :
    ∃ tokens trivia,
      (if c then s.eatTrivia else s) = { s with tokens, calls := s.calls ++ trivia } ∧
        trivia.countP Call.isStart = 0 ∧ trivia.countP Call.isFinish = 0 := by
  split
  · exact ⟨_, _, rfl, countP_map_token _ _ fun _ => rfl, countP_map_token _ _ fun _ => rfl⟩
  · exact ⟨s.tokens, [], by simp, rfl, rfl⟩

/-- What one event tells a builder: starts that are not left then, and an end for an end. -/
theorem exists_of_step {e : Event} (h : s.step i = some s') (he : s.events[i]? = some e) :
    ∃ new, s'.calls = s.calls ++ new ∧
      new.countP Call.isStart + s'.events.countP Event.isStart = s.events.countP Event.isStart ∧
      new.countP Call.isFinish = [e].countP Event.isFinish ∧
      s'.depth = s.depth + new.countP Call.isStart - new.countP Call.isFinish := by
  have hcount := countP_set_placeholder he
  rw [step, he, Option.bind_some] at h
  cases e with
  | start k parent? =>
    obtain ⟨r, hr, rfl⟩ := Option.map_eq_some_iff.mp h
    have hparents := countP_of_parents hr
    obtain ⟨hstarts, hfinishes⟩ := countP_map_startNode (k :: r.1)
    obtain ⟨tokens, trivia, htrivia, hstart, hfinish⟩ :=
      exists_eatTrivia (0 < s.depth) { s with events := r.2 }
    simp only [startNodes_eq, htrivia]
    refine ⟨trivia ++ ((k :: r.1).map Call.startNode).reverse, by rw [List.append_assoc], ?_, ?_,
      ?_⟩
    · rw [List.countP_append, hstart, hstarts]
      simp only [List.countP_singleton, Event.isStart, if_true, List.length_cons] at hcount ⊢
      omega
    · rw [List.countP_append, hfinish, hfinishes]
      rfl
    · rw [List.countP_append, List.countP_append, hstart, hstarts, hfinish, hfinishes]
      omega
  | token k =>
    obtain rfl := Option.some.inj h
    obtain ⟨tokens, trivia, htrivia, hstart, hfinish⟩ :=
      exists_eatTrivia True { s with events := s.events.set i .placeholder }
    rw [if_pos trivial] at htrivia
    rw [htrivia, token]
    cases tokens with
    | nil =>
      refine ⟨trivia, rfl, ?_, hfinish, ?_⟩
      · simpa [hstart, Event.isStart] using hcount
      · simp [hstart, hfinish]
    | cons t tokens =>
      refine ⟨trivia ++ [Call.token ⟨k, t.text⟩], by simp, ?_, ?_, ?_⟩
      · simpa [hstart, Event.isStart, Call.isStart] using hcount
      · simp [hfinish, Call.isFinish, Event.isFinish]
      · simp [hstart, hfinish, Call.isStart, Call.isFinish]
  | finish =>
    obtain rfl := Option.some.inj h
    obtain ⟨tokens, trivia, htrivia, hstart, hfinish⟩ :=
      exists_eatTrivia (s.depth = 1) { s with events := s.events.set i .placeholder }
    simp only [htrivia, finishNode]
    refine ⟨trivia ++ [Call.finishNode], by simp, ?_, ?_, ?_⟩
    · simpa [hstart, Event.isStart, Call.isStart] using hcount
    · simp [hfinish, Call.isFinish, Event.isFinish]
    · simp [hstart, hfinish, Call.isStart, Call.isFinish]
  | placeholder =>
    obtain rfl := Option.some.inj h
    exact ⟨[], (List.append_nil _).symm, by simpa [Event.isStart] using hcount, rfl, rfl⟩

/-! ## Runs -/

/-- The events that are left when the first `i` have been read. -/
structure Left (events : List Event) (i : Nat) (s : Sink) : Prop where
  read : ∀ j < i, s.events[j]? = some .placeholder
  ahead : Without events s.events i (Reached events i)

/-- Every start is left or has been opened. -/
theorem Left.openedBy_add (h : Left events i s) :
    Event.openedBy events i + s.events.countP Event.isStart = events.countP Event.isStart := by
  have hleft : ∀ j, StartsAt s.events j ↔ StartsAt events j ∧ ¬ Reached events i j := by
    intro j
    by_cases hlt : j < i
    · have hread : ¬ StartsAt s.events j := by
        rintro ⟨k, parent?, he⟩
        rw [h.read j hlt] at he
        cases he
      exact ⟨fun hj => absurd hj hread, fun hj => absurd ⟨j, hlt, .refl⟩ hj.2⟩
    · rcases h.ahead j (by omega) with ⟨hsame, hnot⟩ | ⟨-, hsome, hreached⟩
      · rw [StartsAt, hsame]
        exact ⟨fun hj => ⟨hj, hnot⟩, And.left⟩
      · rw [StartsAt, hsome]
        exact ⟨nofun, fun hj => absurd hreached hj.2⟩
  have hdiff : {j | StartsAt s.events j} =
      {j | StartsAt events j} \ {j | StartsAt events j ∧ Reached events i j} := by
    ext j
    rw [Set.mem_sdiff, Set.mem_ofPred_eq, Set.mem_ofPred_eq, Set.mem_ofPred_eq, hleft]
    exact ⟨fun hj => ⟨hj.1, fun hreached => hj.2 hreached.2⟩,
      fun hj => ⟨hj.1, fun hreached => hj.2 ⟨hj.1, hreached⟩⟩⟩
  rw [countP_isStart, countP_isStart, hdiff, Event.openedBy, Nat.add_comm]
  exact Set.ncard_sdiff_add_ncard_of_subset (fun j => And.left) (finite_startsAt events)

/-- Reading replaces an event by a placeholder. -/
theorem Left.read_set (h : Left events i s) {e : Event} (he : s.events[i]? = some e) {j : Nat}
    (hj : j < i + 1) : (s.events.set i .placeholder)[j]? = some .placeholder := by
  rcases Nat.lt_succ_iff_lt_or_eq.mp hj with hlt | rfl
  · exact placeholder_set (h.read j hlt)
  · exact List.getElem?_set_self (List.getElem?_eq_some_iff.mp he).1

/-- If the event that is read is no start, nothing else is taken out. -/
theorem Left.set (h : Left events i s) {e : Event} (he : s.events[i]? = some e)
    (hstart : e.isStart = false) (hevents : s'.events = s.events.set i .placeholder) :
    Left events (i + 1) s' := by
  -- whatever the event leads to had been reached before
  have hreached : ∀ x, i < x → (Reached events (i + 1) x ↔ Reached events i x) := by
    intro x hx
    rw [reached_succ]
    refine ⟨?_, .inl⟩
    rintro (hbefore | hpath)
    · exact hbefore
    · rcases h.ahead i (Nat.le_refl i) with ⟨hsame, -⟩ | ⟨-, -, first, hfirst, hto⟩
      · rcases Relation.ReflTransGen.cases_head hpath with rfl | ⟨y, ⟨k, d, hpoints, -⟩, -⟩
        · exact absurd hx (Nat.lt_irrefl _)
        · rw [← hsame, he] at hpoints
          rw [Option.some.inj hpoints] at hstart
          cases hstart
      · exact ⟨first, hfirst, hto.trans hpath⟩
  constructor
  · exact fun j hj => hevents ▸ h.read_set he hj
  · intro j hj
    rw [hevents, List.getElem?_set_ne (by omega), hreached j (by omega)]
    exact h.ahead j (by omega)

theorem Left.step (h : Left events i s) (hsound : Sound events) (hstep : s.step i = some s') :
    Left events (i + 1) s' := by
  obtain ⟨e, he, hread⟩ := Option.bind_eq_some_iff.mp hstep
  cases e with
  | start k parent? =>
    obtain ⟨r, hr, rfl⟩ := Option.map_eq_some_iff.mp hread
    have hevents : (Sink.startNodes { s with events := r.2 } (k :: r.1)).events = r.2 := by
      obtain ⟨tokens, trivia, htrivia, -⟩ := exists_eatTrivia (0 < s.depth) { s with events := r.2 }
      simp only [startNodes_eq, htrivia]
    have hsame : events[i]? = some (.start k parent?) := by
      rcases h.ahead i (Nat.le_refl i) with ⟨hsame, -⟩ | ⟨-, hsome, -⟩
      · rw [← hsame, he]
      · rw [he] at hsome
        cases hsome
    have hwithout := without_parents hsound hr (fun y => points_iff hsame) (Nat.le_refl i)
      (.inr rfl) ?_ (h.ahead.set ⟨k, parent?, hsame⟩)
    · constructor
      · intro j hj
        rw [hevents]
        exact placeholder_of_parents hr (h.read_set he hj)
      · rw [hevents]
        intro j hj
        refine hwithout.congr (fun x => ?_) j (by omega)
        rw [reached_succ]
        constructor
        · rintro ((hx | rfl) | hpath)
          · exact .inl hx
          · exact .inr .refl
          · exact .inr hpath
        · rintro (hx | hpath)
          · exact .inl (.inl hx)
          · exact .inr hpath
    · rintro x y (⟨first, hfirst, hpath⟩ | rfl) hne hpoints
      · exact .inl ⟨first, hfirst, hpath.tail hpoints⟩
      · exact absurd rfl hne
  | token k =>
    obtain rfl := Option.some.inj hread
    refine h.set he rfl ?_
    unfold Sink.token
    split <;> rfl
  | finish =>
    obtain rfl := Option.some.inj hread
    obtain ⟨tokens, trivia, htrivia, -⟩ :=
      exists_eatTrivia (s.depth = 1) { s with events := s.events.set i .placeholder }
    exact h.set he rfl (by simp only [htrivia, finishNode])
  | placeholder =>
    obtain rfl := Option.some.inj hread
    exact h.set he rfl rfl

theorem prefix_of_steps {n : Nat} (h : steps n i s = some s') : s.calls <+: s'.calls := by
  induction n generalizing i s with
  | zero => exact Option.some.inj h ▸ List.prefix_rfl
  | succ n ih =>
    obtain ⟨s₁, hstep, hrest⟩ := Option.bind_eq_some_iff.mp h
    obtain ⟨e, he, -⟩ := Option.bind_eq_some_iff.mp hstep
    obtain ⟨new, hcalls, -⟩ := exists_of_step hstep he
    exact List.IsPrefix.trans (hcalls ▸ List.prefix_append _ _) (ih hrest)

/-- One more event keeps the balance, if no more ends are told than starts. -/
theorem Balanced.step (hbalanced : Balanced events i s) (hleft : Left events i s)
    (hsound : Sound events) (h : s.step i = some s')
    (hle : s'.calls.countP Call.isFinish ≤ s'.calls.countP Call.isStart) :
    Balanced events (i + 1) s' := by
  obtain ⟨e, he, -⟩ := Option.bind_eq_some_iff.mp h
  obtain ⟨new, hcalls, hstarts, hfinishes, hdepth⟩ := exists_of_step h he
  -- a start that has been taken out is no end either
  obtain ⟨e', he', hsame⟩ : ∃ e', events[i]? = some e' ∧
      [e].countP Event.isFinish = [e'].countP Event.isFinish := by
    rcases hleft.ahead i (Nat.le_refl i) with ⟨hsame, -⟩ | ⟨⟨k, parent?, hstart⟩, hsome, -⟩
    · exact ⟨e, by rw [← hsame, he], rfl⟩
    · obtain rfl : e = .placeholder := Option.some.inj (he.symm.trans hsome)
      exact ⟨_, hstart, rfl⟩
  rw [hcalls, List.countP_append, List.countP_append] at hle
  refine ⟨?_, ?_, ?_⟩
  · have hbefore := hleft.openedBy_add
    have hafter := (hleft.step hsound h).openedBy_add
    rw [hcalls, List.countP_append, hbalanced.opened]
    omega
  · rw [hcalls, List.countP_append, hbalanced.finished, hfinishes, hsame, List.take_add_one, he',
      List.countP_append]
    rfl
  · have hopen := hbalanced.depth
    rw [hcalls, List.countP_append, List.countP_append, hdepth]
    omega

/-- If the calls that a whole stream leads to never finish more nodes than they open, the stream is
    balanced wherever reading it has come to. -/
theorem exists_balanced (hsound : Sound events) {tokens : List Token} {last : Sink}
    (hread : steps events.length 0 (.initial events tokens) = some last)
    (hcalls : ∀ first, first <+: last.calls →
      first.countP Call.isFinish ≤ first.countP Call.isStart) :
    ∀ i ≤ events.length, ∃ s, steps i 0 (.initial events tokens) = some s ∧
      s.calls <+: last.calls ∧ Balanced events i s := by
  have hsteps : ∀ i ≤ events.length, ∃ s, steps i 0 (.initial events tokens) = some s ∧
      s.calls <+: last.calls ∧ Balanced events i s ∧ Left events i s := by
    intro i
    induction i with
    | zero =>
      have hleft : Left events 0 (.initial events tokens) :=
        ⟨fun j hj => absurd hj (Nat.not_lt_zero j), fun j _ =>
          .inl ⟨rfl, fun ⟨first, hfirst, _⟩ => Nat.not_lt_zero first hfirst⟩⟩
      have hnone : Event.openedBy events 0 = 0 := by
        have hall : Event.openedBy events 0 + events.countP Event.isStart = _ := hleft.openedBy_add
        omega
      exact fun _ => ⟨_, rfl, List.nil_prefix, ⟨hnone.symm, rfl, rfl⟩, hleft⟩
    | succ i ih =>
      intro hi
      obtain ⟨s, hs, -, hbalanced, hleft⟩ := ih (by omega)
      -- the whole run goes on from here
      obtain ⟨s', hs', hrest⟩ : ∃ s', steps (i + 1) 0 (.initial events tokens) = some s' ∧
          steps (events.length - (i + 1)) (i + 1) s' = some last := by
        have hsplit : events.length = (i + 1) + (events.length - (i + 1)) := by omega
        rw [hsplit, steps_add, Nat.zero_add] at hread
        exact Option.bind_eq_some_iff.mp hread
      have hstep : s.step i = some s' := by
        rw [steps_add, hs, Option.bind_some, Nat.zero_add] at hs'
        simpa [steps] using hs'
      have htold := prefix_of_steps hrest
      exact ⟨s', hs', htold, hbalanced.step hleft hsound hstep (hcalls _ htold),
        hleft.step hsound hstep⟩
  intro i hi
  obtain ⟨s, hs, htold, hbalanced, -⟩ := hsteps i hi
  exact ⟨s, hs, htold, hbalanced⟩

end Sink

end SwiftOutline
