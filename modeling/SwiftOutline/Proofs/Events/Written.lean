/-
  SwiftOutline.Proofs.Events.Written

  Writing events always succeeds, and the events record the trees that running
  the same program builds.
-/
import SwiftOutline.Proofs.Events.Records
import SwiftOutline.Proofs.Parser.Nests
import SwiftOutline.Parse

namespace SwiftOutline

namespace Event

/-- The events end with a node, and the start of the outermost node around it stands at `i`. -/
def EndsInNode (es : List Event) (ts : List Tree) (i : Nat) : Prop :=
  ∃ before older k inside us ls lts,
    es = before ++ chain k inside ls ∧ ts = around (.node k us.reverse) lts :: older ∧
      i = before.length + outermost inside ls ∧
        Records before older ∧ Records inside us ∧ Layers ls lts

theorem modify_append (before after : List Event) (e : Event) (f : Event → Event) :
    (before ++ e :: after).modify before.length f = before ++ f e :: after := by
  rw [List.modify_eq_take_cons_drop (by simp)]
  simp

/-- A start without a link gets one to the end of the stream. -/
theorem link_start (before after : List Event) (k : NodeKind) :
    link (before ++ .start k none :: after).length before.length
        (before ++ .start k none :: after ++ [Event.placeholder]) =
      some (before ++ .start k (some (after.length + 1)) :: after ++ [Event.placeholder]) := by
  rw [link, dif_pos (by simp)]
  simp

end Event

namespace Writer

open Event

variable {front : List Event} {base : List Tree} {w w' : Writer} {s s' : State}

/-- What has been written behind `front` records what has been built on top of `base`. -/
structure Tracks (front : List Event) (base : List Tree) (w : Writer) (s : State) : Prop where
  view : w.view = s.view
  reports : w.reports = s.reports
  records : ∃ es ts, w.events = front ++ es ∧ s.built = ts ++ base ∧ Records es ts ∧
    ∀ c, w.completed? = some c → ∃ i, c = front.length + i ∧ EndsInNode es ts i

theorem precede_eq {before after : List Event} {k : NodeKind}
    (h : w.events = before ++ .start k none :: after) :
    w.precede before.length = some { w.push .placeholder with
      events := before ++ .start k (some (after.length + 1)) :: after ++ [.placeholder] } := by
  have hlink := link_start before after k
  rw [← h] at hlink
  rw [precede, push, hlink, Option.map_some]

namespace Tracks

theorem consume (h : Tracks front base w s) : Tracks front base w.consume s.consume := by
  obtain ⟨es, ts, hevents, hbuilt, hrec, -⟩ := h.records
  cases hls : s.view.lexemes with
  | nil => simpa [Writer.consume, State.consume, h.view, hls] using h
  | cons l ls =>
    by_cases heof : l.kind = .eof
    · simpa [Writer.consume, State.consume, h.view, hls, heof] using h
    · simp only [Writer.consume, State.consume, h.view, hls, beq_iff_eq, if_neg heof]
      refine ⟨rfl, h.reports, es ++ [.token l.kind], .leaf l.token :: ts, ?_, ?_,
        .token l.token hrec, nofun⟩
      · simp [Writer.push, hevents]
      · simp [hbuilt]

theorem complain (h : Tracks front base w s) (p : Problem) :
    Tracks front base (w.complain p) (s.complain p) := by
  refine ⟨h.view, ?_, h.records⟩
  simp only [Writer.complain, State.complain, h.view, h.reports]

theorem withDirectives (h : Tracks front base w s) (n : Nat) :
    Tracks front base (w.withDirectives n) (s.withDirectives n) := by
  refine ⟨?_, h.reports, h.records⟩
  simp only [Writer.withDirectives, State.withDirectives, h.view]

/-! ### Nodes -/

/-- A node begins: nothing has been written behind its place. -/
theorem mark (h : Tracks front base w s) :
    Tracks (w.events ++ [Event.placeholder]) [] (w.push .placeholder) (s.start false) :=
  ⟨h.view, h.reports, [], [], by simp [Writer.push], rfl, .nil, nofun⟩

/-- A node ends. -/
theorem complete (h : Tracks front base w s)
    (hbody : Tracks (w.events ++ [Event.placeholder]) [] w' s') (k : NodeKind) :
    Tracks front base (w'.complete w.events.length k) (s'.finish s false (some k)) := by
  obtain ⟨es, ts, hevents, hbuilt, hrec, -⟩ := h.records
  obtain ⟨inside, us, hevents', hbuilt', hinside, -⟩ := hbody.records
  rw [List.append_nil] at hbuilt'
  refine ⟨hbody.view, hbody.reports, es ++ chain k inside [], .node k us.reverse :: ts, ?_, ?_,
    .node k hrec hinside .nil, fun c hc => ?_⟩
  · rw [List.append_assoc, List.singleton_append] at hevents'
    simp only [Writer.complete, hevents', modify_append, named, hevents, chain]
    simp
  · simp [State.finish, hbuilt, hbuilt']
  · obtain rfl := Option.some.inj hc
    refine ⟨es.length, by rw [hevents, List.length_append], ?_⟩
    exact ⟨es, ts, k, inside, us, [], [], rfl, rfl, rfl, hrec, hinside, .nil⟩

/-- The place of a node is given up. -/
theorem abandon (h : Tracks front base w s)
    (hbody : Tracks (w.events ++ [Event.placeholder]) [] w' s') :
    ∃ closed, w'.abandon w.events.length = some closed ∧
      Tracks front base closed (s'.finish s false none) := by
  obtain ⟨es, ts, hevents, hbuilt, hrec, -⟩ := h.records
  obtain ⟨inside, us, hevents', hbuilt', hinside, -⟩ := hbody.records
  rw [List.append_nil] at hbuilt'
  have hfinish : (s'.finish s false none).built = us ++ ts ++ base := by
    simp [State.finish, hbuilt, hbuilt']
  rw [Writer.abandon, if_neg (by simp [hevents'])]
  refine ⟨_, rfl, hbody.view, hbody.reports, ?_⟩
  cases inside with
  | nil =>
    -- the place is the last event and is taken back
    obtain rfl := hinside.eq_nil_of_nil
    refine ⟨es, ts, ?_, by simpa using hfinish, hrec, nofun⟩
    simp [hevents', hevents]
  | cons e inside =>
    -- the place stays where it is
    refine ⟨es ++ [Event.placeholder] ++ e :: inside, us ++ ts, ?_, hfinish,
      hrec.placeholder.append hinside, nofun⟩
    have hlast : w.events.length ≠ w'.events.length - 1 := by
      simp only [hevents', List.length_append, List.length_cons, List.length_nil]
      omega
    rw [beq_eq_false_iff_ne.mpr hlast, Bool.false_and, if_neg Bool.false_ne_true, hevents', hevents]
    simp

/-- A node begins around the one that was completed last, and ends. -/
theorem precede (h : Tracks front base w s) (hc : w.completed?.isSome = true) :
    ∃ marked front', w.mark true = some marked ∧
      Tracks front' (s.built.take 1) marked (s.start true) ∧
      ∀ {w' s'}, Tracks front' (s.built.take 1) w' s' → ∀ k,
        Tracks front base (w'.complete w.events.length k) (s'.finish s true (some k)) := by
  obtain ⟨c, hcompleted⟩ := Option.isSome_iff_exists.mp hc
  obtain ⟨es, ts, hevents, hbuilt, -, hnode⟩ := h.records
  obtain ⟨i, rfl, before, older, k₀, inside, us, ls, lts, rfl, rfl, rfl, hbefore, hinside,
    hlayers⟩ := hnode c hcompleted
  obtain ⟨inner, k', after, hlength, hchain, hconcat⟩ := exists_chain_eq k₀ inside ls
  have hsplit : w.events = (front ++ before ++ inner) ++ .start k' none :: after := by
    simp only [hevents, hchain, List.append_assoc]
  have hplace : front.length + (before.length + outermost inside ls) =
      (front ++ before ++ inner).length := by
    simp only [List.length_append, hlength]
    omega
  have htop : s.built.take 1 = [around (.node k₀ us.reverse) lts] := by simp [hbuilt]
  let linked := (front ++ before ++ inner) ++ .start k' (some (after.length + 1)) :: after
  have hmark :
      w.mark true = some { w.push .placeholder with events := linked ++ [.placeholder] } := by
    rw [Writer.mark, if_pos rfl, hcompleted, Option.bind_some, hplace, precede_eq hsplit]
  refine ⟨_, linked ++ [.placeholder], hmark,
    ⟨h.view, h.reports, [], [], (List.append_nil _).symm, by simp [State.start], .nil, nofun⟩, ?_⟩
  intro w' s' hbody k
  obtain ⟨inside', us', hevents', hbuilt', hinside', -⟩ := hbody.records
  rw [htop] at hbuilt'
  have hlayers' : Layers (ls ++ [(k, inside')]) (lts ++ [(k, us')]) := hlayers.concat hinside' k
  refine ⟨hbody.view, hbody.reports, before ++ chain k₀ inside (ls ++ [(k, inside')]),
    around (.node k₀ us.reverse) (lts ++ [(k, us')]) :: older, ?_, ?_,
    .node k₀ hbefore hinside hlayers', fun c hc => ?_⟩
  · -- the place of the node is behind all that had been written
    have hlinked : w'.events = linked ++ .placeholder :: inside' := by
      rw [hevents', List.append_assoc, List.singleton_append]
    have hlength : w.events.length = linked.length := by simp [hsplit, linked]
    rw [Writer.complete, hlinked, hlength, modify_append, hconcat]
    simp [linked, named]
  · simp [State.finish, hbuilt, hbuilt', around_concat]
  · obtain rfl := Option.some.inj hc
    refine ⟨before.length + outermost inside (ls ++ [(k, inside')]), ?_, ?_⟩
    · rw [outermost_concat k₀, hevents, List.length_append, List.length_append]
    · exact ⟨before, older, k₀, inside, us, _, _, rfl, rfl, rfl, hbefore, hinside, hlayers'⟩

end Tracks

end Writer

namespace Parser

open Writer Event

variable {α σ : Type} {front : List Event} {base : List Tree} {w : Writer} {s : State} {top : Bool}
  {Q : α → Bool → Prop}

/-- Writing succeeds with the result of running, the events record what has been built, and a node
    has been completed last if that is known. -/
def Matches (front : List Event) (base : List Tree) (r : α × State) (w? : Option (α × Writer))
    (Q : α → Bool → Prop) : Prop :=
  ∃ w top, w? = some (r.1, w) ∧ Tracks front base w r.2 ∧
    (top = true → w.completed?.isSome = true) ∧ Q r.1 top

variable {call : Rule → State → Bool × State} {writeCall : Rule → Writer → Option (Bool × Writer)}

/-- The rounds of a loop match if each of them does. -/
theorem matches_writeRounds {round : σ → State → Step σ × State}
    {writeRound : σ → Writer → Option (Step σ × Writer)} {known : Bool}
    (hround : ∀ a {w s}, Tracks front base w s → (known = true → w.completed?.isSome = true) →
      Matches front base (round a s) (writeRound a w) fun _ top => known = true → top = true)
    (n : Nat) (a : σ) (ht : Tracks front base w s)
    (hw : known = true → w.completed?.isSome = true) :
    Matches front base (runRounds round n a s) (writeRounds writeRound n a w) fun _ top =>
      known = true → top = true := by
  induction n generalizing a w s with
  | zero => exact ⟨w, known, rfl, ht, hw, id⟩
  | succ n ih =>
    obtain ⟨w', top, hwrite, ht', htop, hknown⟩ := hround a ht hw
    rw [runRounds, writeRounds, hwrite, Option.bind_some]
    cases hr : round a s with
    | mk r s' =>
      rw [hr] at ht'
      cases r with
      | stop b => exact ⟨w', top, rfl, ht', htop, hknown⟩
      | again b => exact ih b ht' fun hk => htop (hknown hk)

/-- Writing follows running, for programs that put nodes around nodes they have made just before. -/
theorem Nests.matches
    (hcall : ∀ r {front base w s}, Tracks front base w s →
      ∃ w', writeCall r w = some ((call r s).1, w') ∧ Tracks front base w' (call r s).2)
    {p : Parser α} (h : Nests p top Q) (ht : Tracks front base w s)
    (hw : top = true → w.completed?.isSome = true) :
    Matches front base (p.run call s) (p.write writeCall w) Q := by
  induction p generalizing top front base w s with
  | done a => exact ⟨w, top, rfl, ht, hw, h⟩
  | look next ih =>
    rw [write, ht.view]
    exact ih s.view (h s.view) ht hw
  | consume next ih => exact ih h ht.consume nofun
  | complain p next ih => exact ih h (ht.complain p) hw
  | group adopt body next ihb ihn =>
    rw [run_group, write]
    cases adopt with
    | false =>
      obtain ⟨w', top', hwrite, ht', -, -, hnext⟩ := ihb h.2 ht.mark nofun
      rw [Writer.mark, if_neg Bool.false_ne_true, Option.bind_some, hwrite, Option.bind_some]
      cases hk : (body.run call (s.start false)).1.2 with
      | none =>
        obtain ⟨closed, hclosed, ht''⟩ := ht.abandon ht'
        rw [Writer.close, hclosed, Option.bind_some]
        rw [hk] at hnext
        exact ihn _ hnext ht'' nofun
      | some k =>
        rw [hk] at hnext
        exact ihn _ hnext (ht.complete ht' k) fun _ => rfl
    | true =>
      obtain ⟨marked, front', hmark, ht', hcomplete⟩ := ht.precede (hw (h.1 rfl))
      obtain ⟨w', top', hwrite, ht'', -, hk, hnext⟩ := ihb h.2 ht' nofun
      obtain ⟨k, hk⟩ := Option.isSome_iff_exists.mp (hk rfl)
      rw [hmark, Option.bind_some, hwrite, Option.bind_some, hk]
      rw [hk] at hnext
      exact ihn _ hnext (hcomplete ht'' k) fun _ => rfl
  | directive body next ihb ihn =>
    obtain ⟨w', top', hwrite, ht', htop', hnext⟩ :=
      ihb h (ht.withDirectives (s.view.directives + 1)) hw
    rw [run_directive, write, ht.view, hwrite, Option.bind_some]
    exact ihn _ hnext (ht'.withDirectives s.view.directives) htop'
  | call r next ih =>
    obtain ⟨w', hwrite, ht'⟩ := hcall r ht
    rw [run_call, write, hwrite, Option.bind_some]
    exact ih _ (h _) ht' nofun
  | loop round init next ihr ihn =>
    obtain ⟨known, hknown, hround, hnext⟩ := h
    have hrounds : Matches front base
        (runRounds (fun a s => (round a).run call s) (s.view.lexemes.length + 1) init s)
        (writeRounds (fun a w => (round a).write writeCall w) (s.view.lexemes.length + 1) init w)
        fun _ top => known = true → top = true :=
      matches_writeRounds (fun a _ _ ht hw => ihr a (hround a) ht hw) _ init ht
        fun hk => hw (hknown hk)
    obtain ⟨w', top', hwrite, ht', htop', hknown'⟩ := hrounds
    rw [run_loop, write, ht.view, hwrite, Option.bind_some]
    exact ihn _ (hnext _) ht' fun hk => htop' (hknown' hk)

end Parser

namespace Grammar

open SwiftOutline.Parser Writer

theorem writeRule_eq_some (depth : Nat) (r : Rule) {front : List Event} {base : List Tree}
    {w : Writer} {s : State} (ht : Tracks front base w s) :
    ∃ w', writeRule depth r w = some ((runRule depth r s).1, w') ∧
      Tracks front base w' (runRule depth r s).2 := by
  induction depth generalizing r front base w s with
  | zero => exact ⟨w, rfl, ht⟩
  | succ depth ih =>
    have hbody : Nests (body r) false fun _ _ => True := nests_body r
    obtain ⟨w', top, hwrite, ht', -⟩ := hbody.matches (fun r {_ _ _ _} => ih r) ht nofun
    exact ⟨w', hwrite, ht'⟩

/-- Writing the events of lexemes succeeds. -/
theorem exists_write_file (lexemes : List Lexeme) (endGap : Gap) :
    ∃ r es, file.write (writeRule (depthBound lexemes.length)) (Writer.initial lexemes endGap) =
        some r ∧
      r.2.events = .start .sourceFile none :: es ∧
      Event.Records es (parseLexemes lexemes endGap).built ∧
      r.2.reports = (parseLexemes lexemes endGap).reports := by
  have hinitial : Tracks [.start .sourceFile none] [] (Writer.initial lexemes endGap)
      (State.initial lexemes endGap) :=
    ⟨rfl, rfl, [], [], rfl, rfl, .nil, nofun⟩
  have hfile : Nests file false fun _ _ => True := nests_file
  obtain ⟨w, top, hwrite, ht, -⟩ := hfile.matches
    (fun r {_ _ _ _} => writeRule_eq_some (depthBound lexemes.length) r) hinitial nofun
  obtain ⟨es, ts, hevents, hbuilt, hrec, -⟩ := ht.records
  refine ⟨_, es, hwrite, hevents, ?_, ?_⟩
  · rw [parseLexemes, hbuilt, List.append_nil]
    exact hrec
  · rw [parseLexemes]
    exact ht.reports

end Grammar

/-- Writing the events of a text succeeds: what stands between the start and the end of the root
    records what parsing builds, and the same problems are found. -/
theorem exists_writeTokens_eq (tokens : List Token) :
    ∃ w es, writeTokens tokens = some w ∧
      w.events = .start .sourceFile none :: (es ++ [Event.finish]) ∧
      Event.Records es (finalState tokens).built ∧ w.reports = (finalState tokens).reports := by
  obtain ⟨r, es, hwrite, hevents, hrec, hreports⟩ :=
    Grammar.exists_write_file (Lexeme.ofTokens tokens).1 (Lexeme.ofTokens tokens).2
  refine ⟨r.2.push .finish, es, ?_, ?_, hrec, hreports⟩
  · simp only [writeTokens, hwrite, Option.map_some]
  · rw [Writer.push, hevents]
    rfl

end SwiftOutline
