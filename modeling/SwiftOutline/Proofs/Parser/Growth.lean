/-
  SwiftOutline.Proofs.Parser.Growth

  What every run does to the lexemes and to the trees: it takes lexemes away from
  the front and puts their tokens, in order, behind the leaves of what has been
  built. Tokens are set aside in `unexpected` nodes only where a problem has been
  reported, and some nodes have a part that is never missing. Since all programs
  are made of a handful of operations, this needs no look at the grammar.
-/
import SwiftOutline.Parse
import SwiftOutline.Proofs.Parser.Run
import SwiftOutline.Proofs.Tree.Leaves

namespace SwiftOutline

/-- `s.Leads t` says that `t` comes from `s` by consuming lexemes whose tokens are then the last
    leaves of what is built. No `eof` is among them. -/
def State.Leads (s t : State) : Prop :=
  ∃ eaten : List Lexeme,
    s.view.lexemes = eaten ++ t.view.lexemes ∧
    (∀ l ∈ eaten, l.kind ≠ .eof) ∧
    Tree.forestLeaves t.built.reverse =
      Tree.forestLeaves s.built.reverse ++ eaten.map Lexeme.token

namespace State

variable {s t u : State}

theorem Leads.refl (s : State) : s.Leads s :=
  ⟨[], rfl, by simp, by simp⟩

theorem Leads.trans (h : s.Leads t) (h' : t.Leads u) : s.Leads u := by
  obtain ⟨xs, hl, hne, hb⟩ := h
  obtain ⟨ys, hl', hne', hb'⟩ := h'
  refine ⟨xs ++ ys, ?_, ?_, ?_⟩
  · rw [hl, hl', List.append_assoc]
  · intro l hmem
    rcases List.mem_append.mp hmem with hx | hy
    · exact hne l hx
    · exact hne' l hy
  · rw [hb', hb, List.map_append, List.append_assoc]

/-! ## Operations -/

theorem leads_consume (s : State) : s.Leads s.consume := by
  unfold consume
  split
  · exact .refl s
  · next l ls hl =>
    split
    · exact .refl s
    · next hk =>
      refine ⟨[l], by simp [hl], by simpa using hk, ?_⟩
      simp [Tree.forestLeaves_append, Tree.forestLeaves, Tree.leaves]

/-- What has been built is what was adopted into a new node and what stands before that. -/
theorem exists_built_start (s : State) (adopt : Bool) :
    ∃ before, s.built = (s.start adopt).built ++ before ∧
      (if adopt then s.built.drop 1 else s.built) = before := by
  cases adopt with
  | true => exact ⟨s.built.drop 1, (List.take_append_drop 1 s.built).symm, rfl⟩
  | false => exact ⟨s.built, rfl, rfl⟩

/-- A node has the leaves of what it was made of, so ending it moves no leaf. -/
theorem Leads.finish {adopt : Bool} {k? : Option NodeKind} (h : (s.start adopt).Leads t) :
    s.Leads (t.finish s adopt k?) := by
  obtain ⟨eaten, hl, hne, hb⟩ := h
  refine ⟨eaten, hl, hne, ?_⟩
  obtain ⟨before, hs, hbefore⟩ := s.exists_built_start adopt
  have hgoal : Tree.forestLeaves (t.finish s adopt k?).built.reverse =
      Tree.forestLeaves before.reverse ++ Tree.forestLeaves t.built.reverse := by
    cases k? with
    | some k =>
      simp only [State.finish, hbefore, List.reverse_cons, Tree.forestLeaves_append,
        Tree.forestLeaves, Tree.leaves, List.append_nil]
    | none => simp only [State.finish, hbefore, List.reverse_append, Tree.forestLeaves_append]
  rw [hgoal, hb, hs, List.reverse_append, Tree.forestLeaves_append, List.append_assoc]

theorem Leads.withDirectives {m n : Nat} (h : (s.withDirectives m).Leads t) :
    s.Leads (t.withDirectives n) := by
  obtain ⟨eaten, hl, hne, hb⟩ := h
  exact ⟨eaten, hl, hne, hb⟩

end State

/-! ## Runs -/

namespace Parser

variable {call : Rule → State → Bool × State}

theorem runRounds_leads {σ : Type} {round : σ → State → Step σ × State}
    (h : ∀ (a : σ) (s : State), s.Leads (round a s).2) (n : Nat) (a : σ) (s : State) :
    s.Leads (runRounds round n a s).2 := by
  induction n generalizing a s with
  | zero => exact .refl s
  | succ n ih =>
    have hround := h a s
    rw [runRounds]
    split
    · next hr => simpa [hr] using hround
    · next hr =>
      rw [hr] at hround
      exact hround.trans (ih _ _)

/-- Every program leads on from where it is run, if the rules do. -/
theorem run_leads (hcall : ∀ (r : Rule) (s : State), s.Leads (call r s).2) {α : Type}
    (p : Parser α) (s : State) :
    s.Leads (p.run call s).2 := by
  induction p generalizing s with
  | done a => exact .refl s
  | look next ih => exact ih _ s
  | consume next ih => exact s.leads_consume.trans (ih _)
  | complain p next ih => exact ih (s.complain p)
  | group adopt body next ihb ihn => exact (ihb _).finish.trans (ihn _ _)
  | directive body next ihb ihn => exact (ihb _).withDirectives.trans (ihn _ _)
  | call r next ih => exact (hcall r s).trans (ih _ _)
  | loop round init next ihr ihn =>
    exact (runRounds_leads (fun a t => ihr a t) _ _ _).trans (ihn _ _)

end Parser

namespace Grammar

/-- Following a rule leads on, however deep rules can be followed. -/
theorem runRule_leads (depth : Nat) (r : Rule) (s : State) : s.Leads (runRule depth r s).2 := by
  induction depth generalizing r s with
  | zero => exact .refl s
  | succ depth ih => exact Parser.run_leads ih (body r) s

/-- Parsing lexemes leads on from nothing built. -/
theorem leads_parseLexemes (lexemes : List Lexeme) (endGap : Gap) :
    (State.initial lexemes endGap).Leads (parseLexemes lexemes endGap) :=
  Parser.run_leads (runRule_leads _) file _

end Grammar

/-! ## Nodes set aside -/

/-- An `unexpected` node, told by how many tokens it has and how many there are from its first one
    to the end of the text. -/
structure Aside where
  size : Nat
  remaining : Nat

namespace Tree

mutual

/-- The `unexpected` nodes of a tree with `behind` tokens behind it. -/
def asides : Tree → (behind : Nat) → List Aside
  | .leaf _, _ => []
  | .node k children, behind =>
    let size := (forestLeaves children).length
    (if k == .unexpected then [⟨size, size + behind⟩] else []) ++ forestAsides children behind

/-- The `unexpected` nodes of a sequence of trees with `behind` tokens behind it. -/
def forestAsides : List Tree → (behind : Nat) → List Aside
  | [], _ => []
  | t :: ts, behind => asides t ((forestLeaves ts).length + behind) ++ forestAsides ts behind

end

theorem forestAsides_append (ts us : List Tree) (behind : Nat) :
    forestAsides (ts ++ us) behind =
      forestAsides ts ((forestLeaves us).length + behind) ++ forestAsides us behind := by
  induction ts with
  | nil => rfl
  | cons t ts ih =>
    rw [List.cons_append, forestAsides, forestAsides, ih, forestLeaves_append, List.length_append,
      List.append_assoc, Nat.add_assoc]

end Tree

/-! ## Parts of nodes -/

/-- The kind of the part that nodes of a kind always have, if there is one that matters. -/
def NodeKind.part? : NodeKind → Option NodeKind
  | .variableDecl => some .patternBindingList
  | .patternBindingList => some .patternBinding
  | .enumCaseDecl => some .enumCaseElement
  | _ => none

/-- Whether nodes of a kind can be made of anything. -/
def NodeKind.isPlain (k : NodeKind) : Bool := k != .unexpected && k.part?.isNone

/-- Whether a node of kind `k` is among some trees. -/
def Tree.Has (k : NodeKind) (ts : List Tree) : Prop := ∃ t ∈ ts, t.nodeKind? = some k

/-- Whether trees can be made a node of kind `k` without setting anything aside. -/
def NodeKind.Takes (k : NodeKind) (ts : List Tree) : Prop :=
  k ≠ .unexpected ∧ ∀ p, k.part? = some p → Tree.Has p ts

theorem takes_of_isPlain {k : NodeKind} (h : k.isPlain = true) (ts : List Tree) : k.Takes ts := by
  simp only [NodeKind.isPlain, Bool.and_eq_true, bne_iff_ne, Option.isNone_iff_eq_none] at h
  exact ⟨h.1, fun p hp => absurd (h.2.symm.trans hp) (by simp)⟩

theorem takes_of_has {k p : NodeKind} {ts : List Tree} (hk : k ≠ .unexpected)
    (hp : k.part? = some p) (h : Tree.Has p ts) : k.Takes ts :=
  ⟨hk, fun _ hq => Option.some.inj (hp.symm.trans hq) ▸ h⟩

/-- Whether every node of a tree has the part that nodes of its kind have. -/
inductive Tree.Complete : Tree → Prop where
  | leaf {t : Token} : Complete (.leaf t)
  | node {k : NodeKind} {children : List Tree}
      (part : ∀ p, k.part? = some p → Tree.Has p children)
      (inside : ∀ t ∈ children, Complete t) : Complete (.node k children)

/-! ## Growing states -/

namespace State

variable {s t u : State}

/-- What has been built is in order: each `unexpected` node has tokens and begins where a problem
    was reported, and no node lacks its part. -/
structure Sound (s : State) : Prop where
  reported : ∀ a ∈ Tree.forestAsides s.built.reverse s.left,
    0 < a.size ∧ ∃ r ∈ s.reports, r.remaining = a.remaining
  complete : ∀ t ∈ s.built, t.Complete

/-- What running a program does to a state: it consumes lexemes into leaves, adds reports, and
    keeps what has been built in order. -/
structure Grows (s t : State) : Prop where
  leads : s.Leads t
  reports : s.reports ⊆ t.reports
  sound : s.Sound → t.Sound

theorem Grows.refl (s : State) : s.Grows s :=
  ⟨.refl s, fun _ hr => hr, id⟩

theorem Grows.trans (h : s.Grows t) (h' : t.Grows u) : s.Grows u :=
  ⟨h.leads.trans h'.leads, fun _ hr => h'.reports (h.reports hr), fun hs => h'.sound (h.sound hs)⟩

theorem Leads.length_add_left (h : s.Leads t) :
    (Tree.forestLeaves t.built.reverse).length + t.left =
      (Tree.forestLeaves s.built.reverse).length + s.left := by
  obtain ⟨eaten, hlexemes, -, hbuilt⟩ := h
  rw [hbuilt, left, left, hlexemes, List.length_append, List.length_append, List.length_map,
    Nat.add_assoc]

theorem Leads.left_le (h : s.Leads t) : t.left ≤ s.left := by
  obtain ⟨eaten, hlexemes, -, -⟩ := h
  rw [left, left, hlexemes, List.length_append]
  exact Nat.le_add_left _ _

theorem sound_initial (lexemes : List Lexeme) (endGap : Gap) : (initial lexemes endGap).Sound :=
  ⟨fun _ ha => absurd ha List.not_mem_nil, fun _ ht => absurd ht List.not_mem_nil⟩

/-! ### Operations -/

theorem grows_consume (s : State) : s.Grows s.consume := by
  refine ⟨leads_consume s, ?_, fun hs => ?_⟩
  · unfold consume
    split
    · exact fun _ hr => hr
    · split <;> exact fun _ hr => hr
  · cases hend : s.view.atEnd with
    | true =>
      rw [consume_of_atEnd hend]
      exact hs
    | false =>
      obtain ⟨l, ls, hl, -, hconsume⟩ := consume_of_not_atEnd hend
      rw [hconsume]
      refine ⟨fun a ha => hs.reported a ?_, fun t ht => ?_⟩
      · -- the lexeme that was left is now the last leaf
        simp only [List.reverse_cons, Tree.forestAsides_append, Tree.forestAsides, Tree.asides,
          Tree.forestLeaves, Tree.leaves, List.append_nil, List.length_singleton] at ha
        have hleft : s.left = 1 + ls.length := by rw [left, hl, List.length_cons, Nat.add_comm]
        rwa [hleft]
      · rcases List.mem_cons.mp ht with rfl | ht
        · exact .leaf
        · exact hs.complete t ht

/-- A node that has been built stays when a lexeme is consumed. -/
theorem has_consume {k : NodeKind} (h : Tree.Has k s.built) : Tree.Has k s.consume.built := by
  obtain ⟨tree, htree, hkind⟩ := h
  cases hend : s.view.atEnd with
  | true =>
    rw [consume_of_atEnd hend]
    exact ⟨tree, htree, hkind⟩
  | false =>
    obtain ⟨l, ls, -, -, hconsume⟩ := consume_of_not_atEnd hend
    rw [hconsume]
    exact ⟨tree, List.mem_cons_of_mem _ htree, hkind⟩

theorem grows_complain (s : State) (p : Problem) : s.Grows (s.complain p) := by
  refine ⟨⟨[], rfl, by simp, by simp [complain]⟩, fun _ hr => List.mem_cons_of_mem _ hr,
    fun hs => ⟨fun a ha => ?_, hs.complete⟩⟩
  obtain ⟨hsize, r, hr, hremaining⟩ := hs.reported a ha
  exact ⟨hsize, r, List.mem_cons_of_mem _ hr, hremaining⟩

theorem Grows.withDirectives {m n : Nat} (h : (s.withDirectives m).Grows t) :
    s.Grows (t.withDirectives n) :=
  ⟨h.leads.withDirectives, h.reports,
    fun hs => ⟨(h.sound ⟨hs.reported, hs.complete⟩).reported,
      (h.sound ⟨hs.reported, hs.complete⟩).complete⟩⟩

theorem Sound.start (hs : s.Sound) (adopt : Bool) : (s.start adopt).Sound := by
  obtain ⟨before, hbuilt, -⟩ := s.exists_built_start adopt
  refine ⟨fun a ha => hs.reported a ?_, fun t ht => hs.complete t ?_⟩
  · rw [hbuilt, List.reverse_append, Tree.forestAsides_append]
    exact List.mem_append_right _ ha
  · rw [hbuilt]
    exact List.mem_append_left _ ht

/-- Whether what has been built since `s` can be made a node of kind `k`. -/
structure Fits (s t : State) (k : NodeKind) : Prop where
  aside : k = .unexpected →
    s.built = [] ∧ t.left < s.left ∧ ∃ r ∈ s.reports, r.remaining = s.left
  part : ∀ p, k.part? = some p → Tree.Has p t.built

theorem fits_of_takes {k : NodeKind} (h : k.Takes t.built) : s.Fits t k :=
  ⟨fun hk => absurd hk h.1, h.2⟩

/-- Ending a node keeps what has been built in order if the node fits. -/
theorem Grows.finish {adopt : Bool} {k? : Option NodeKind} (h : (s.start adopt).Grows t)
    (hk : ∀ k, k? = some k → (s.start adopt).Fits t k) : s.Grows (t.finish s adopt k?) := by
  refine ⟨h.leads.finish, h.reports, fun hs => ?_⟩
  obtain ⟨before, hbuilt, hbefore⟩ := s.exists_built_start adopt
  have ht := h.sound (hs.start adopt)
  have hlength : (Tree.forestLeaves t.built.reverse).length + t.left =
      (Tree.forestLeaves (s.start adopt).built.reverse).length + s.left :=
    h.leads.length_add_left
  -- what stands before the node has as many tokens behind it as it had
  have hbefores : ∀ a ∈ Tree.forestAsides before.reverse
      ((Tree.forestLeaves t.built.reverse).length + t.left),
      0 < a.size ∧ ∃ r ∈ t.reports, r.remaining = a.remaining := by
    intro a ha
    obtain ⟨hsize, r, hr, hremaining⟩ := hs.reported a (by
      rw [hbuilt, List.reverse_append, Tree.forestAsides_append]
      rw [hlength] at ha
      exact List.mem_append_left _ ha)
    exact ⟨hsize, r, h.reports hr, hremaining⟩
  have hcomplete : ∀ u ∈ before, u.Complete := by
    intro u hu
    refine hs.complete u ?_
    rw [hbuilt]
    exact List.mem_append_right _ hu
  cases k? with
  | none =>
    refine ⟨fun a ha => ?_, fun u hu => ?_⟩
    · simp only [State.finish, hbefore, List.reverse_append, Tree.forestAsides_append] at ha
      rcases List.mem_append.mp ha with ha | ha
      · exact hbefores a ha
      · exact ht.reported a ha
    · simp only [State.finish, hbefore] at hu
      rcases List.mem_append.mp hu with hu | hu
      · exact ht.complete u hu
      · exact hcomplete u hu
  | some k =>
    have hfits := hk k rfl
    refine ⟨fun a ha => ?_, fun u hu => ?_⟩
    · simp only [State.finish, hbefore, List.reverse_cons, Tree.forestAsides_append,
        Tree.forestAsides, Tree.asides, Tree.forestLeaves, Tree.leaves, List.append_nil,
        List.length_nil, Nat.zero_add] at ha
      rcases List.mem_append.mp ha with ha | ha
      · exact hbefores a ha
      · rcases List.mem_append.mp ha with ha | ha
        · split at ha
          · next hunexpected =>
            obtain ⟨hempty, hlt, r, hr, hremaining⟩ := hfits.aside (eq_of_beq hunexpected)
            have hlt' : t.left < s.left := hlt
            have hremaining' : r.remaining = s.left := hremaining
            rw [hempty] at hlength
            simp only [List.reverse_nil, Tree.forestLeaves, List.length_nil, Nat.zero_add]
              at hlength
            rw [List.mem_singleton.mp ha]
            refine ⟨by show 0 < (Tree.forestLeaves t.built.reverse).length; omega, r,
              h.reports hr, ?_⟩
            rw [hremaining']
            exact hlength.symm
          · exact absurd ha List.not_mem_nil
        · exact ht.reported a ha
    · simp only [State.finish, hbefore] at hu
      rcases List.mem_cons.mp hu with rfl | hu
      · refine .node (fun p hp => ?_) fun u hu => ht.complete u (List.mem_reverse.mp hu)
        obtain ⟨u, hu, hkind⟩ := hfits.part p hp
        exact ⟨u, List.mem_reverse.mpr hu, hkind⟩
      · exact hcomplete u hu

end State

end SwiftOutline
