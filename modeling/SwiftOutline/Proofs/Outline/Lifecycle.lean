/-
  SwiftOutline.Proofs.Outline.Lifecycle

  An explorer over its life. Changes of the text, searches, and readings that are
  put off come in any order; what is read is always that of the text that was
  searched last, and the explorer is stale as long as that is not the text it has.
-/
import SwiftOutline.Explorer
import SwiftOutline.Proofs.Outline.Location
import SwiftOutline.Proofs.Outline.Search

namespace SwiftOutline

variable {m : ViewMode} {c : Cursor} {K : DeclarationKind}

/-! ## Handles -/

namespace Handle

/-- The handles of a node are as many as the declarations that it introduces. -/
theorem length_read (hK : c.introduces? = some K) :
    (Declaration.read m c).length = countAt m c := by
  have hlength := congrArg List.length (Declaration.map_record_read (m := m) hK)
  rw [List.length_map] at hlength
  rw [hlength, Cursor.records, countAt, Declaration.isKind_variableDecl hK, hK]
  by_cases hne : K = .binding
  · subst hne
    dsimp only
    rw [if_pos (by rfl), List.length_map, Cursor.bindingsIn]
    cases c.child? .patternBindingList with
    | none => rfl
    | some list => rfl
  · rw [if_neg (by simpa using hne)]
    split
    · next h => exact absurd h (Option.some_ne_none K)
    · next h => exact absurd (Option.some.inj h) hne
    · rfl

/-- Read one by one, the handles of a node are the declarations that it introduces. -/
theorem map_declaration?_allAt (hK : c.introduces? = some K) :
    (allAt m c).map (declaration? m) = (Declaration.read m c).map some := by
  apply List.ext_getElem?
  intro i
  rw [allAt, ← length_read hK, List.map_map, List.getElem?_map, List.getElem?_map]
  by_cases hi : i < (Declaration.read m c).length
  · rw [List.getElem?_range hi, Option.map_some, Function.comp_apply, declaration?,
      List.getElem?_eq_getElem hi]
    rfl
  · have hnone : (List.range (Declaration.read m c).length)[i]? = none :=
      List.getElem?_eq_none (by rw [List.length_range]; omega)
    rw [hnone, List.getElem?_eq_none (by omega)]
    rfl

/-- Read one by one, the handles of a tree are its outline. -/
theorem map_declaration?_allIn (m : ViewMode) (root : Cursor) :
    (allIn m root).map (declaration? m) = (Outline.ofCursor m root).map some := by
  rw [allIn, Outline.ofCursor, Outline.ofNodes, List.map_flatMap, List.map_flatMap]
  refine List.flatMap_congr fun k _ => ?_
  rw [List.map_flatMap, List.map_flatMap]
  refine List.flatMap_congr fun c hc => ?_
  exact map_declaration?_allAt (eq_of_beq (List.mem_filter.mp hc).2)

end Handle

namespace Explorer

variable {e : Explorer} {s : Option String} {source : String}

/-! ## What an explorer shows -/

/-- The outline of a text, if there is one. -/
def outlineOf (m : ViewMode) (s : Option String) : Outline := (s.map (Outline.ofSource m)).getD []

/-- What was found wrong with a text, if there is one. -/
def diagnosticsOf (s : Option String) : List Diagnostic :=
  (s.map fun source => (parse source).diagnostics).getD []

/-- All that an explorer tells of declarations is what they are in a text, or there are none. -/
structure Shows (e : Explorer) (s : Option String) : Prop where
  outline : e.outline = outlineOf e.settings.viewMode s
  diagnostics : e.diagnostics = diagnosticsOf s
  reading : ∀ path p,
    (e.read path p).1 = ((outlineOf e.settings.viewMode s).at? path).map p.of
  location : ∀ ds, (e.locate ds).1 = ds.map Declaration.location

/-- An explorer keeps the handles of a text, and has read nothing but what they are. -/
structure Keeps (e : Explorer) (s : Option String) : Prop where
  handles : e.handles.map (Handle.declaration? e.settings.viewMode) =
    (outlineOf e.settings.viewMode s).map some
  diagnostics : e.diagnostics = diagnosticsOf s
  readings : ∀ path p, ∀ r ∈ e.readings.lookup (path, p),
    ((outlineOf e.settings.viewMode s).at? path).map p.of = some r

theorem declaration?_eq (h : e.Keeps s) (path : List Nat) :
    e.declaration? path = (outlineOf e.settings.viewMode s).at? path := by
  cases path with
  | nil => rfl
  | cons i path =>
    have hhandle := congrArg (fun ds : List (Option Declaration) => ds[i]?.join) h.handles
    rw [List.getElem?_map, List.getElem?_map] at hhandle
    have hdeclaration : e.handles[i]?.bind (Handle.declaration? e.settings.viewMode) =
        (outlineOf e.settings.viewMode s)[i]? := by
      have hjoin : ∀ o : Option Declaration, (o.map some).join = o := by
        intro o
        cases o with
        | none => rfl
        | some d => rfl
      rw [← hjoin (outlineOf e.settings.viewMode s)[i]?, ← hhandle]
      cases e.handles[i]? with
      | none => rfl
      | some x => rfl
    rw [declaration?, hdeclaration, Outline.at?]

/-- Whether it was read before or is read now makes no difference. -/
theorem reading?_eq (h : e.Keeps s) (path : List Nat) (p : Property) :
    e.reading? path p = ((outlineOf e.settings.viewMode s).at? path).map p.of := by
  rw [reading?]
  cases hlookup : e.readings.lookup (path, p) with
  | none => rw [declaration?_eq h]
  | some r => exact (h.readings path p r hlookup).symm

/-- Reading changes only what is kept of the readings. -/
theorem read_eq (e : Explorer) (path : List Nat) (p : Property) :
    (e.read path p).1 = e.reading? path p ∧
      (e.read path p).2 =
        { e with
          readings := ((e.reading? path p).map fun r => ((path, p), r)).toList ++ e.readings } := by
  rw [read]
  cases e.reading? path p with
  | none => exact ⟨rfl, rfl⟩
  | some r => exact ⟨rfl, rfl⟩

/-- Locating changes only what is kept of the line starts. -/
theorem locate_eq (h : e.locations.IsBuilt) (ds : List Declaration) :
    (e.locate ds).1 = ds.map Declaration.location ∧
      (e.locate ds).2 = { e with locations := (e.locate ds).2.locations } ∧
      (e.locate ds).2.locations.IsBuilt := by
  induction ds generalizing e with
  | nil => exact ⟨rfl, rfl, h⟩
  | cons d ds ih =>
    have hlocate := LocationService.locate_eq h d.place
    obtain ⟨hlocations, hframe, hbuilt⟩ :=
      @ih { e with locations := ⟨some (d.place.root.text, .ofText d.place.root.text)⟩ } fun _ _ hi => by
        obtain ⟨rfl, rfl⟩ := Prod.mk.inj (Option.some.inj hi)
        rfl
    rw [locate, hlocate]
    dsimp only
    refine ⟨?_, ?_, hbuilt⟩
    · rw [List.map_cons, hlocations]
      rfl
    · rw [hframe]

theorem shows_of_keeps (h : e.Keeps s) (hbuilt : e.locations.IsBuilt) : e.Shows s where
  outline := by
    have houtline := congrArg (List.filterMap id) h.handles
    rw [List.filterMap_map, List.filterMap_map] at houtline
    exact houtline.trans List.filterMap_some
  diagnostics := h.diagnostics
  reading path p := (read_eq e path p).1.trans (reading?_eq h path p)
  location ds := (locate_eq hbuilt ds).1

/-! ## Operations -/

/-- What can be done with an explorer. -/
inductive Operation where
  | update (source : String)
  | collect
  | read (path : List Nat) (p : Property)
  | locate (ds : List Declaration)
  | resetLocations

/-- The explorer behind an operation. -/
def apply (e : Explorer) : Operation → Explorer
  | .update source => e.update source
  | .collect => e.collect
  | .read path p => (e.read path p).2
  | .locate ds => (e.locate ds).2
  | .resetLocations => e.resetLocations

/-- The explorer behind operations that are done one after the other. -/
def run (e : Explorer) (ops : List Operation) : Explorer := ops.foldl apply e

namespace Operation

/-- The text that an operation brings. -/
def newSource? : Operation → Option String
  | update source => some source
  | _ => none

end Operation

/-- The last text that operations bring, or the one before them. -/
def currentSource (source : String) (ops : List Operation) : String :=
  (ops.filterMap Operation.newSource?).getLast?.getD source

variable {op : Operation} {ops : List Operation}

theorem settings_apply (hbuilt : e.locations.IsBuilt) : (e.apply op).settings = e.settings := by
  cases op with
  | read path p => rw [apply, (read_eq e path p).2]
  | locate ds => rw [apply, (locate_eq hbuilt ds).2.1]
  | update | collect | resetLocations => rfl

theorem source_apply (hbuilt : e.locations.IsBuilt) :
    (e.apply op).source = op.newSource?.getD e.source := by
  cases op with
  | read path p => rw [apply, (read_eq e path p).2]; rfl
  | locate ds => rw [apply, (locate_eq hbuilt ds).2.1]; rfl
  | update | collect | resetLocations => rfl

theorem isBuilt_apply (hbuilt : e.locations.IsBuilt) : (e.apply op).locations.IsBuilt := by
  cases op with
  | read path p =>
    rw [apply, (read_eq e path p).2]
    exact hbuilt
  | locate ds => exact (locate_eq hbuilt ds).2.2
  | update | collect => exact hbuilt
  | resetLocations => exact LocationService.isBuilt_empty

/-- A search keeps the handles of the text that is current. -/
theorem keeps_collect (e : Explorer) : e.collect.Keeps (some e.source) := by
  constructor
  · rw [outlineOf, Option.map_some, Option.getD_some, Outline.ofSource, collect]
    dsimp only
    exact Handle.map_declaration?_allIn e.settings.viewMode _
  · rw [collect, diagnosticsOf, Option.map_some, Option.getD_some]
  · intro path p r hr
    have hreadings : e.collect.readings = [] := by rw [collect]
    rw [hreadings] at hr
    exact nomatch hr

theorem keeps_read (h : e.Keeps s) (path : List Nat) (p : Property) :
    (e.read path p).2.Keeps s := by
  rw [(read_eq e path p).2]
  cases hr : e.reading? path p with
  | none => exact h
  | some r =>
    refine ⟨h.handles, h.diagnostics, fun path' p' r' hlookup => ?_⟩
    dsimp only [Option.map_some, Option.toList_some, List.singleton_append] at hlookup ⊢
    -- what is kept now is what was asked for, or was kept before
    by_cases hsame : (path', p') = (path, p)
    · obtain ⟨rfl, rfl⟩ := Prod.mk.inj hsame
      rw [List.lookup_cons_self] at hlookup
      rw [← Option.some.inj hlookup, ← hr, reading?_eq h]
    · rw [List.lookup_cons, beq_eq_false_iff_ne.mpr hsame] at hlookup
      exact h.readings path' p' r' hlookup

/-- Only a search changes what is kept. -/
theorem keeps_apply (h : e.Keeps s) (hbuilt : e.locations.IsBuilt) (hop : op ≠ .collect) :
    (e.apply op).Keeps s := by
  cases op with
  | update source => exact ⟨h.handles, h.diagnostics, h.readings⟩
  | collect => exact absurd rfl hop
  | read path p => exact keeps_read h path p
  | locate ds =>
    rw [apply, (locate_eq hbuilt ds).2.1]
    exact ⟨h.handles, h.diagnostics, h.readings⟩
  | resetLocations => exact ⟨h.handles, h.diagnostics, h.readings⟩

/-- A change of the text makes an explorer stale, a search makes it fresh, and nothing else does
    either. -/
theorem isStale_apply (hbuilt : e.locations.IsBuilt) :
    (e.apply op).isStale = true ↔
      (∃ source, op = .update source) ∨ op ≠ .collect ∧ e.isStale = true := by
  cases op with
  | update source => simp [apply, update]
  | collect => simp [apply, collect]
  | read path p => simp [apply, (read_eq e path p).2]
  | locate ds =>
    rw [apply, (locate_eq hbuilt ds).2.1]
    simp
  | resetLocations => simp [apply, resetLocations]

/-! ## Histories -/

theorem isBuilt_run (hbuilt : e.locations.IsBuilt) : (e.run ops).locations.IsBuilt := by
  induction ops generalizing e with
  | nil => exact hbuilt
  | cons op ops ih => exact ih (isBuilt_apply hbuilt)

theorem settings_run (hbuilt : e.locations.IsBuilt) : (e.run ops).settings = e.settings := by
  induction ops generalizing e with
  | nil => rfl
  | cons op ops ih => exact (ih (isBuilt_apply hbuilt)).trans (settings_apply hbuilt)

theorem source_run (hbuilt : e.locations.IsBuilt) :
    (e.run ops).source = currentSource e.source ops := by
  induction ops generalizing e with
  | nil => rfl
  | cons op ops ih =>
    have hrun : (e.run (op :: ops)).source = _ := ih (isBuilt_apply hbuilt)
    rw [hrun, source_apply hbuilt, currentSource, currentSource]
    cases hop : op.newSource? with
    | none => rw [List.filterMap_cons_none hop]; rfl
    | some source =>
      rw [List.filterMap_cons_some hop, List.getLast?_cons, Option.getD_some, Option.getD_some]

theorem run_append (e : Explorer) (before after : List Operation) :
    e.run (before ++ after) = (e.run before).run after :=
  List.foldl_append

theorem keeps_run (h : e.Keeps s) (hbuilt : e.locations.IsBuilt) (hops : .collect ∉ ops) :
    (e.run ops).Keeps s := by
  induction ops generalizing e with
  | nil => exact h
  | cons op ops ih =>
    obtain ⟨hop, hops⟩ := List.ne_and_not_mem_of_not_mem_cons hops
    exact ih (keeps_apply h hbuilt (Ne.symm hop)) (isBuilt_apply hbuilt) hops

/-- An explorer that is not stale keeps the handles of the text that it has. -/
theorem keeps_current_run (h : e.isStale = false → e.Keeps (some e.source))
    (hbuilt : e.locations.IsBuilt) :
    (e.run ops).isStale = false → (e.run ops).Keeps (some (e.run ops).source) := by
  induction ops generalizing e with
  | nil => exact h
  | cons op ops ih =>
    refine ih (fun hfresh => ?_) (isBuilt_apply hbuilt)
    by_cases hop : op = .collect
    · subst hop
      exact keeps_collect e
    · obtain ⟨hnew, hold⟩ := not_or.mp
        (mt (isStale_apply hbuilt).mpr (Bool.eq_false_iff.mp hfresh))
      have hsource : op.newSource? = none := by
        cases op with
        | update source => exact absurd ⟨source, rfl⟩ hnew
        | collect | read | locate | resetLocations => rfl
      rw [source_apply hbuilt, hsource]
      exact keeps_apply (h (Bool.eq_false_iff.mpr fun hstale => hold ⟨hop, hstale⟩)) hbuilt hop

/-- Stale is an explorer that no search was made with since it was stale before, or since a change
    of the text. -/
theorem isStale_run (hbuilt : e.locations.IsBuilt) :
    (e.run ops).isStale = true ↔
      (e.isStale = true ∧ Operation.collect ∉ ops) ∨
        ∃ before source after, ops = before ++ Operation.update source :: after ∧
          Operation.collect ∉ after := by
  induction ops generalizing e with
  | nil => simp [run]
  | cons op ops ih =>
    have hrun : (e.run (op :: ops)).isStale = true ↔ _ := ih (isBuilt_apply hbuilt)
    rw [hrun, isStale_apply hbuilt]
    constructor
    · rintro (⟨⟨source, rfl⟩ | ⟨hop, hstale⟩, hops⟩ | ⟨before, source, after, rfl, hafter⟩)
      · exact .inr ⟨[], source, ops, rfl, hops⟩
      · exact .inl ⟨hstale, List.not_mem_cons_of_ne_of_not_mem (Ne.symm hop) hops⟩
      · exact .inr ⟨op :: before, source, after, rfl, hafter⟩
    · rintro (⟨hstale, hops⟩ | ⟨before, source, after, hops, hafter⟩)
      · obtain ⟨hop, hops⟩ := List.ne_and_not_mem_of_not_mem_cons hops
        exact .inl ⟨.inr ⟨Ne.symm hop, hstale⟩, hops⟩
      · cases before with
        | nil =>
          obtain ⟨rfl, rfl⟩ := List.cons.inj hops
          exact .inl ⟨.inl ⟨source, rfl⟩, hafter⟩
        | cons op' before =>
          obtain ⟨rfl, rfl⟩ := List.cons.inj hops
          exact .inr ⟨before, source, after, rfl, hafter⟩

/-- Whatever is done with an explorer, in whatever order: it has the text that it was given last;
    it is stale exactly as long as no search was made since it was created or since the text was
    changed last; and whatever it tells or is asked for is what it is in the text that was current
    at the last search, or nothing if there was none. When it is not stale, this is the text that it
    has. -/
theorem shows_last_search (settings : Settings) (source : String) (ops : List Operation) :
    let e := (ofSource settings source).run ops
    e.settings = settings ∧ e.source = currentSource source ops ∧
    (∀ before after, ops = before ++ .collect :: after → .collect ∉ after →
      e.Shows (some (currentSource source before))) ∧
    (.collect ∉ ops → e.Shows none) ∧
    (e.isStale = true ↔ .collect ∉ ops ∨
      ∃ before source after, ops = before ++ .update source :: after ∧ .collect ∉ after) ∧
    (e.isStale = false → e.Shows (some e.source)) := by
  intro e
  have hempty : (ofSource settings source).locations.IsBuilt := LocationService.isBuilt_empty
  have hbuilt : e.locations.IsBuilt := isBuilt_run hempty
  refine ⟨settings_run hempty, source_run hempty, ?_, ?_, ?_, ?_⟩
  · rintro before after rfl hafter
    have hbefore : ((ofSource settings source).run before).locations.IsBuilt := isBuilt_run hempty
    have hkeeps := keeps_collect ((ofSource settings source).run before)
    rw [source_run hempty] at hkeeps
    have hrun : e = ((ofSource settings source).run before).collect.run after :=
      run_append (ofSource settings source) before (.collect :: after)
    refine shows_of_keeps ?_ hbuilt
    rw [hrun]
    exact keeps_run hkeeps hbefore hafter
  · intro hops
    have hnone : (ofSource settings source).Keeps none :=
      ⟨rfl, rfl, fun _ _ _ hr => nomatch hr⟩
    exact shows_of_keeps (keeps_run hnone hempty hops) hbuilt
  · rw [isStale_run hempty]
    simp [ofSource]
  · intro hfresh
    exact shows_of_keeps (keeps_current_run (fun h => nomatch h) hempty hfresh) hbuilt

end Explorer

end SwiftOutline
