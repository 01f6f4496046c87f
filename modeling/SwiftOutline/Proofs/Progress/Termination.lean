/-
  SwiftOutline.Proofs.Progress.Termination

  The parser comes to an end on every sequence of lexemes. Its run exists
  without any bound, makes progress in every loop and between any two entries of
  a rule, and consumes all that can be consumed; the bounds of the machine never
  cut it short, so a larger depth changes nothing.
-/
import SwiftOutline.Parse
import SwiftOutline.Proofs.Parser.Growth
import SwiftOutline.Proofs.Parser.Proceeds
import SwiftOutline.Proofs.Progress.Item
import SwiftOutline.Proofs.Progress.Lookahead

namespace SwiftOutline

namespace Grammar

open SwiftOutline.Parser

/-! ## Rules -/

/-- Two entries of one rule have one rank. -/
theorem rank_eq_of_sameAs {r r' : Rule} (h : r.sameAs r' = true) : r.rank = r'.rank := by
  cases r <;> cases r' <;> simp_all [Rule.sameAs, Rule.rank]

/-- The outcome `o` of following `r` from `s`: what the contract promises, by a run that makes
    progress, and found by the machine at every depth above the weight. -/
structure Outcome (r : Rule) (s : State) (o : Bool × State) : Prop where
  ensures : (progress (r.weight s)).ensures r s o.1 o.2
  proceeds : ∀ E : List Entry, (∀ e ∈ E, r.weight s < 4 * e.left + e.rule.rank) →
    Proceeds body (⟨r, s.left⟩ :: E) (body r) s o.1 o.2
  runRule_eq : ∀ depth, r.weight s < depth → runRule depth r s = o

/-- A rule keeps the contract wherever its weight is below that of all rules that are being
    followed. -/
theorem Outcome.keeps {r : Rule} {s : State} {o : Bool × State} {E : List Entry} {bound : Nat}
    (h : Outcome r s o) (hE : ∀ e ∈ E, r.weight s < 4 * e.left + e.rule.rank) :
    Keeps body (progress bound) E r s o := by
  refine ⟨h.ensures, fun e he hsame => ?_, h.proceeds E hE⟩
  have hlt := hE e he
  have hrank := rank_eq_of_sameAs hsame
  unfold Rule.weight at hlt
  omega

/-- Every rule that may be followed has an outcome, by induction on its weight. -/
theorem exists_outcome (r : Rule) (s : State) (hr : r = .ifStmt → s.view.kind = .kwIf) :
    ∃ o, Outcome r s o := by
  induction hn : r.weight s using Nat.strongRecOn generalizing r s with
  | ind n ih =>
    subst hn
    -- what the rules inside come to; the depth is enough for all of them
    let outcome := runRule (r.weight s)
    have hinside : ∀ r' s',
        (progress (r.weight s)).admits r' s' → Outcome r' s' (outcome r' s') := by
      intro r' s' hadm
      obtain ⟨o, ho⟩ := ih _ hadm.1 r' s' hadm.2 rfl
      have heq : outcome r' s' = o := ho.runRule_eq _ hadm.1
      rw [heq]
      exact ho
    have hweight : 4 * s.left + min r.rank 4 ≤ r.weight s :=
      Nat.add_le_add_left (Nat.min_le_left _ _) _
    have hwp := advances_body hr (r.weight s) s rfl hweight
    have hrun : ∀ E : List Entry, (∀ e ∈ E, r.weight s < 4 * e.left + e.rule.rank) →
        ∃ b t, s.Moves t (r.consumes s.view) ∧
          Proceeds body (⟨r, s.left⟩ :: E) (body r) s b t ∧
          ∀ call, (∀ r' s', (progress (r.weight s)).admits r' s' → call r' s' = outcome r' s') →
            (body r).run call s = (b, t) := by
      intro E hE
      refine exists_proceeds_of_wp (fun r' s' hadm => (hinside r' s' hadm).keeps ?_) hwp
      intro e he
      rcases List.mem_cons.mp he with rfl | he
      · exact hadm.1
      · exact Nat.lt_trans hadm.1 (hE e he)
    refine ⟨(body r).run outcome s, ?_, fun E hE => ?_, fun depth hdepth => ?_⟩
    · obtain ⟨b, t, hpost, -, heq⟩ := hrun [] (by simp)
      rw [heq outcome fun _ _ _ => rfl]
      exact hpost
    · obtain ⟨b, t, -, hproc, heq⟩ := hrun E hE
      rw [heq outcome fun _ _ _ => rfl]
      exact hproc
    · obtain ⟨b, t, -, -, heq⟩ := hrun [] (by simp)
      obtain ⟨d, rfl⟩ : ∃ d, depth = d + 1 := ⟨depth - 1, by omega⟩
      rw [heq outcome fun _ _ _ => rfl, runRule]
      refine heq _ fun r' s' hadm => ?_
      obtain ⟨o, ho⟩ := ih _ hadm.1 r' s' hadm.2 rfl
      have hlt : r'.weight s' < r.weight s := hadm.1
      rw [ho.runRule_eq d (by omega)]
      exact (ho.runRule_eq _ hlt).symm

/-! ## Files -/

/-- A file comes to its end: a list of items that ends early is followed by recovery, which
    consumes a lexeme. -/
theorem wp_file {bound : Nat} {s : State} (hb : 4 * s.left + 4 ≤ bound) :
    wp (progress bound) file (fun _ t => s.Grows t ∧ t.view.atEnd = true) s := by
  have items : Steady 4 (follow' (.items .topLevel)) := steady_follow' rfl
  refine wp_bind (wp_mono (fun _ t ht => ?_) (items s.view bound s rfl hb))
  -- the rounds have no more lexemes than there were
  refine ⟨fun _ u => s.Grows u ∧ u.left ≤ s.left, ⟨ht.grows, ht.left_le⟩, ?_⟩
  rintro ⟨⟩ u ⟨hgrows, hu⟩
  refine wp_andThen (wp_bind (wp_view ?_))
  dsimp only
  cases hend : u.view.atEnd with
  | true =>
    rw [if_pos rfl]
    exact ⟨hgrows, hend⟩
  | false =>
    rw [if_neg (by simp)]
    have hrecover : Advances 4 u.view (fun _ => True) (recover .topLevelToken) :=
      recover_of_not_atEnd hend
    refine wp_bind (wp_mono (fun _ x hx => ?_) (hrecover bound u rfl (by omega)))
    have hlt : x.left < u.left := hx.left_lt trivial
    refine wp_bind (wp_mono (fun _ y hy => ?_) (items x.view bound x rfl (by omega)))
    have hle : y.left ≤ x.left := hy.left_le
    exact ⟨by omega, hgrows.trans (hx.grows.trans hy.grows), by omega⟩

/-- The run of a file: it ends with nothing left to consume, and the machine finds it at every
    depth that reaches the bound. -/
theorem exists_proceeds_file (lexemes : List Lexeme) (endGap : Gap) :
    ∃ t : State, ((State.initial lexemes endGap).Grows t ∧ t.view.atEnd = true) ∧
      Proceeds body [] file (State.initial lexemes endGap) () t ∧
      ∀ depth, depthBound lexemes.length ≤ depth →
        file.run (runRule depth) (State.initial lexemes endGap) = ((), t) := by
  have hweight : 4 * (State.initial lexemes endGap).left + 4 ≤ depthBound lexemes.length := by
    show 4 * lexemes.length + 4 ≤ 4 * (lexemes.length + 1)
    omega
  -- a rule below the bound has one outcome at all depths that reach the bound
  have hrules : ∀ r s, (progress (depthBound lexemes.length)).admits r s →
      ∃ o, Outcome r s o ∧ ∀ depth, depthBound lexemes.length ≤ depth → runRule depth r s = o := by
    intro r s hadm
    obtain ⟨o, ho⟩ := exists_outcome r s hadm.2
    exact ⟨o, ho, fun depth hdepth => ho.runRule_eq depth (Nat.lt_of_lt_of_le hadm.1 hdepth)⟩
  have hkeeps : ∀ r s, (progress (depthBound lexemes.length)).admits r s →
      Keeps body (progress (depthBound lexemes.length)) [] r s
        (runRule (depthBound lexemes.length) r s) := by
    intro r s hadm
    obtain ⟨o, ho, heq⟩ := hrules r s hadm
    rw [heq _ (Nat.le_refl _)]
    exact ho.keeps (by simp)
  obtain ⟨⟨⟩, t, hend, hproc, hrun⟩ := exists_proceeds_of_wp hkeeps (wp_file hweight)
  refine ⟨t, hend, hproc, fun depth hdepth => hrun _ fun r s hadm => ?_⟩
  obtain ⟨o, -, heq⟩ := hrules r s hadm
  rw [heq depth hdepth, heq _ (Nat.le_refl _)]

/-- What parsing builds is in order. -/
theorem sound_parseLexemes (lexemes : List Lexeme) (endGap : Gap) :
    (parseLexemes lexemes endGap).Sound := by
  obtain ⟨t, ⟨hgrows, -⟩, -, hrun⟩ := exists_proceeds_file lexemes endGap
  have hfinal : parseLexemes lexemes endGap = t := by
    rw [parseLexemes, hrun _ (Nat.le_refl _)]
  rw [hfinal]
  exact hgrows.sound (State.sound_initial lexemes endGap)

/-- A run to the end has consumed everything before the first `eof`. -/
theorem lexemes_of_atEnd {s t : State} (h : s.Leads t) (hend : t.view.atEnd = true) :
    t.view.lexemes = s.view.lexemes.dropWhile fun l => l.kind != .eof := by
  obtain ⟨eaten, hl, hne, -⟩ := h
  rw [hl, List.dropWhile_append_of_pos (by simpa using hne)]
  cases hv : t.view.lexemes with
  | nil => rfl
  | cons l ls =>
    have hk : l.kind = .eof := by simpa [View.atEnd, View.kind, View.kindAt, hv] using hend
    rw [List.dropWhile_cons_of_neg (by simp [hk])]

/-- What parsing leaves of the lexemes. -/
theorem lexemes_parseLexemes (lexemes : List Lexeme) (endGap : Gap) :
    (parseLexemes lexemes endGap).view.lexemes =
      lexemes.dropWhile fun l => l.kind != .eof := by
  obtain ⟨t, ⟨-, hend⟩, -, hrun⟩ := exists_proceeds_file lexemes endGap
  have hfinal : parseLexemes lexemes endGap = t := by
    rw [parseLexemes, hrun _ (Nat.le_refl _)]
  have hleads := leads_parseLexemes lexemes endGap
  rw [hfinal] at hleads ⊢
  exact lexemes_of_atEnd hleads hend

/-- Parsing comes to an end on every sequence of lexemes, whatever their kinds and texts. It has a
    run without any bounds, and that is its only one: every round of a loop but the last consumes a
    lexeme, and so does a rule before it is entered again. The run consumes every lexeme up to an
    `eof`. No bound of the machine, neither of the depth of rules nor of the rounds of looking
    ahead, has an influence on it. -/
theorem parseLexemes_proceeds (lexemes : List Lexeme) (endGap : Gap) :
    Proceeds body [] file (State.initial lexemes endGap) () (parseLexemes lexemes endGap) ∧
    (∀ E t, Proceeds body E file (State.initial lexemes endGap) () t →
      t = parseLexemes lexemes endGap) ∧
    (parseLexemes lexemes endGap).view.lexemes =
      lexemes.dropWhile (fun l => l.kind != .eof) ∧
    (∀ depth, depthBound lexemes.length ≤ depth →
      file.run (runRule depth) (State.initial lexemes endGap) =
        ((), parseLexemes lexemes endGap)) ∧
    ∀ (ls : List Lexeme) (rounds : Nat),
      (ls.length ≤ rounds →
        Lookahead.skipMany Lookahead.skipAttribute? rounds ls = Lookahead.skipAttributes ls ∧
        Lookahead.skipMany Lookahead.skipModifier? rounds ls = Lookahead.skipModifiers ls ∧
        Lookahead.skipMany Lookahead.skipEffect? rounds ls = Lookahead.skipEffects ls) ∧
      (Lookahead.signatureLimit ≤ rounds →
        Lookahead.atSignatureEnd ls.length rounds (Lookahead.skipCaptures ls) =
          Lookahead.atClosureSignature ls) := by
  obtain ⟨t, -, hproc, hrun⟩ := exists_proceeds_file lexemes endGap
  have hfinal : t = parseLexemes lexemes endGap := by
    rw [parseLexemes, hrun _ (Nat.le_refl _)]
  rw [hfinal] at hproc hrun
  refine ⟨hproc, fun E u hu => (hu.unique hproc).2, lexemes_parseLexemes lexemes endGap, hrun,
    fun ls rounds => ⟨fun hr => ⟨?_, ?_, ?_⟩, fun hr => ?_⟩⟩
  · exact Lookahead.skipMany_congr Lookahead.shortens_skipAttribute? hr (Nat.le_refl _)
  · exact Lookahead.skipMany_congr Lookahead.shortens_skipModifier? hr (Nat.le_refl _)
  · exact Lookahead.skipMany_congr Lookahead.shortens_skipEffect? hr (Nat.le_refl _)
  · exact Lookahead.atSignatureEnd_congr (Lookahead.length_skipCaptures_le ls) (by omega)
      (Nat.le_add_right _ _)

end Grammar

end SwiftOutline
