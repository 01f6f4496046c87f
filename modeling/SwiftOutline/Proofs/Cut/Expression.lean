/-
  SwiftOutline.Proofs.Cut.Expression

  Patterns and expressions on a front part of a text. Patterns may leave brackets
  open where they end at a closing brace, so their ends have to be known. Whether
  a line goes on with the one before depends on the gap behind an operator, which
  is missed only where that operator is the last lexeme before the cut.
-/
import SwiftOutline.Proofs.Cut.Signature

namespace SwiftOutline

namespace Grammar

open SwiftOutline.Parser

variable {c : Cut} {i n : Nat} {v : View} {binding : Bool}

/-! ## Patterns -/

theorem safe_patternLabel : Safe c patternLabel := by
  refine fun i v => .view_bind (.pair (C := fun w => w.kind.isArgumentLabel &&
    w.kind != .underscore && w.kindAt 1 == .colon) (fun hin => ?_) (fun w h => ?_)
    (fun w hw => .bump hw.atEnd) (fun w hw => .bump hw.plain) fun _ => .pure (Nat.le_refl 0))
  · rw [View.kind_cut (Nat.lt_of_succ_lt hin), View.kindAt_cut hin]
  · rw [Bool.and_eq_true, Bool.and_eq_true, beq_iff_eq, ← View.kind_tail] at h
    exact ⟨.of_isArgumentLabel h.1.1, .of_kind h.2 rfl rfl⟩

/-- Patterns with labels in parentheses. -/
theorem safeAt_patternList {kind : NodeKind} {element : NodeKind} {problem : Problem}
    {X : Unit → View → Prop} (h : v.kind = .lParen) : SafeAt c i (fun _ => 0) X 0 v
    (node kind do
      bump
      separatedUntil .rParen (node element do
        patternLabel
        follow (.pattern binding))
      require .rParen problem)
    (node kind do
      bump
      separatedUntil .rParen (node element do
        patternLabel
        follow (.pattern binding))
      require .rParen problem) := by
  refine .node (.bracketed_of (by rw [h]; rfl) rfl fun _ => .separatedUntil_of
    (fun _ _ _ => .inr (Nat.succ_pos i)) fun w => .node (.bind safe_patternLabel.safeAt
    fun _ _ => .follow trivial fun _ u _ hu => ?_))
  rcases hu with hk | hk <;> exact ⟨by rw [hk]; decide, by rw [hk]; decide⟩

theorem safe_patternSuffixes : Safe c (patternSuffixes binding) := by
  have hwords : ∀ w : View, (w.kind == .dot && (w.kindAt 1).isNameLike) = true →
      w.AtWord ∧ w.tail.AtWord := by
    intro w h
    rw [Bool.and_eq_true, beq_iff_eq, ← View.kind_tail] at h
    exact ⟨.of_kind h.1 rfl rfl, .of_isNameLike h.2⟩
  have hparen : ∀ w : View, w.seesJoined .lParen = true → w.kind = .lParen := fun w h =>
    eq_of_beq (Bool.and_eq_true_iff.mp h).1
  refine .repeating fun i v => .view_bind (.ahead (C := fun w => w.kind == .dot &&
    (w.kindAt 1).isNameLike) 1 (fun hin => ?_) (fun h => ?_) (fun h => ?_) (fun h => ?_)
    fun _ => ?_)
  · rw [View.kind_cut (Nat.lt_of_succ_lt hin), View.kindAt_cut hin]
  · exact View.kind_tail _ ▸ (hwords _ h).2.ne
  · exact (Eats.wrap (.bump_bind (hwords v h).1.atEnd (.bump (hwords v h).2.atEnd))).first
  · refine .bind (.wrap (.word_then (hwords v h).1 (.bump (hwords v h).2.plain))) fun _ _ => ?_
    exact .pure (Nat.le_refl 0)
  · refine .ahead (C := fun w => w.seesJoined .lParen) 0 (fun hin => View.seesJoined_cut hin)
      (fun h => ?_) (fun h => ?_) (fun h => ?_) fun _ => .pure (Nat.le_refl 0)
    · show (v.cut c).kind ≠ .eof
      rw [hparen _ h]
      decide
    · exact (Feeds.first (x := false) (.wrap (.node (.first (.bump_kind (hparen _ h) rfl))))).eats
    · refine .bind (.wrap (safeAt_patternList (hparen _ h))) fun _ _ => ?_
      exact .pure (Nat.le_refl 0)

theorem safe_patternPrimary : Safe c (patternPrimary binding) := by
  have hliteral : ∀ w : View, w.kind.isLiteral = true → w.AtWord := by
    intro w h
    refine ⟨atEnd_of_isLiteral h, ?_⟩
    revert h
    cases w.kind <;> decide
  have hminus : ∀ w : View, (w.kind == .operator && w.text == "-" && !(w.gapAt 1).trivia &&
      (w.kindAt 1 == .intLiteral || w.kindAt 1 == .floatLiteral)) = true →
      w.AtWord ∧ w.tail.AtWord := by
    intro w h
    simp only [Bool.and_eq_true, Bool.or_eq_true, beq_iff_eq, ← View.kind_tail] at h
    exact ⟨.of_kind h.1.1.1 rfl rfl, h.2.elim (.of_kind · rfl rfl) (.of_kind · rfl rfl)⟩
  have hmember : ∀ w : View, (w.kind == .dot && (w.kindAt 1).isNameLike) = true →
      w.AtWord ∧ w.tail.AtWord := by
    intro w h
    rw [Bool.and_eq_true, beq_iff_eq, ← View.kind_tail] at h
    exact ⟨.of_kind h.1 rfl rfl, .of_isNameLike h.2⟩
  have hsuffixes : Safe c (do patternSuffixes binding; pure true) :=
    .bind safe_patternSuffixes fun _ => .pure
  refine fun i v => .view_bind (.ahead (C := fun w => w.kind.isLiteral) 0
    (fun hin => by rw [View.kind_cut hin]) (fun h => (hliteral _ h).ne) (fun h => ?_) (fun h => ?_)
    fun _ => .ahead (C := fun w => w.kind == .operator && w.text == "-" && !(w.gapAt 1).trivia &&
      (w.kindAt 1 == .intLiteral || w.kindAt 1 == .floatLiteral)) 1 (fun hin => ?_)
      (fun h => ?_) (fun h => ?_) (fun h => ?_) fun _ => .ahead (C := fun w => w.kind == .dot &&
        (w.kindAt 1).isNameLike) 1 (fun hin => ?_) (fun h => ?_) (fun h => ?_) (fun h => ?_)
        fun _ => ?_)
  · exact (Eats.node (.bump (hliteral v h).atEnd)).first
  · exact .bind (.node (.bump (hliteral v h).plain)) fun _ _ => .pure (Nat.le_refl 0)
  · rw [View.kind_cut (Nat.lt_of_succ_lt hin), View.text_cut (Nat.lt_of_succ_lt hin),
      View.kindAt_cut hin, View.gapAt_cut hin]
  · exact View.kind_tail _ ▸ (hminus _ h).2.ne
  · exact (Eats.node (.bump_bind (hminus v h).1.atEnd (.bump (hminus v h).2.atEnd))).first
  · refine .bind (.node (.word_then (hminus v h).1 (.bump (hminus v h).2.plain))) fun _ _ => ?_
    exact .pure (Nat.le_refl 0)
  · rw [View.kind_cut (Nat.lt_of_succ_lt hin), View.kindAt_cut hin]
  · exact View.kind_tail _ ▸ (hmember _ h).2.ne
  · exact (Eats.node (.bump_bind (hmember v h).1.atEnd (.bump (hmember v h).2.atEnd))).first
  · refine .bind (.node (.word_then (hmember v h).1 (.bump (hmember v h).2.plain))) fun _ _ => ?_
    exact hsuffixes.safeAt
  · -- a name, which is consumed
    have hname : ∀ {x : TokenKind} {q : Parser Bool}, v.kind = x → x.isOpener = false →
        (x == .eof) = false →
        (c.behind < v.lexemes.length → q = (do
          node .declReferenceExpr bump
          patternSuffixes binding
          pure true)) → SafeAt c i (fun _ => 0) anyEnd 0 v (do
          node .declReferenceExpr bump
          patternSuffixes binding
          pure true) q := by
      intro x q hx ho heof hq
      refine .eaten (Eats.node (.bump (View.atEnd_of_kind hx heof))).first fun hin => ?_
      rw [hq hin]
      exact .bind (.node (.bump_kind hx ho)) fun _ _ => hsuffixes.safeAt
    have hcut := View.kind_cut (c := c) (v := v)
    split
    · next h => exact hname h rfl rfl fun hin => by rw [hcut hin, h]
    · next h => exact hname h rfl rfl fun hin => by rw [hcut hin, h]
    · next h => exact hname h rfl rfl fun hin => by rw [hcut hin, h]
    · next h => exact hname h rfl rfl fun hin => by rw [hcut hin, h]
    · next hident hself hcapital hsuper =>
      split
      · next h => exact absurd (View.kind_of_cut h rfl) hident
      · next h => exact absurd (View.kind_of_cut h rfl) hself
      · next h => exact absurd (View.kind_of_cut h rfl) hcapital
      · next h => exact absurd (View.kind_of_cut h rfl) hsuper
      · exact .pure (Nat.le_refl 0)

/-- A token of a pattern that ends neither at a closing brace nor at the end of the text. -/
theorem safeAt_patternToken (depth : Nat) : SafeAt c i (roundEnd id fun _ => 0)
    (roundEnd (fun _ _ => True) fun _ => PatternEnd) depth v (patternToken depth)
    (patternToken depth) := by
  refine .view_next ?_ (fun hin => ?_) ?_
  · split
    · next h => exact .pure_of_not fun hend => hend.1 h
    · next h => exact .pure_of_not fun hend => hend.2 h
    · next h =>
      split
      · next hdepth => exact .pure (Nat.le_of_eq (eq_of_beq hdepth))
      · exact .bind (.shift (safeAt_closure h)) fun _ _ => .pure (Nat.le_refl depth)
    · next h => exact .bind (.bump_opener (by rw [h]; rfl)) fun _ _ => .pure (Nat.le_refl _)
    · next h => exact .bind (.bump_opener (by rw [h]; rfl)) fun _ _ => .pure (Nat.le_refl _)
    · next hend hrBrace hlBrace hparen hbracket =>
      split
      · next hstop =>
        exact .pure (Nat.le_of_eq (eq_of_beq (Bool.and_eq_true_iff.mp hstop).1))
      · next hgoes =>
        split
        · next hclose =>
          rw [Bool.or_eq_true, beq_iff_eq, beq_iff_eq] at hclose
          -- outside all brackets a closing one ends the pattern
          cases depth with
          | zero => exact absurd (by rcases hclose with h | h <;> rw [h] <;> decide) hgoes
          | succ depth =>
            refine .bind (.bump_closer ?_) fun _ _ => .pure (Nat.le_refl depth)
            rcases hclose with h | h <;> rw [h] <;> rfl
        · refine .bind (.bump ?_) fun _ _ => .pure (Nat.le_refl depth)
          cases hk : v.kind <;> first | rfl | contradiction
  · rw [View.kind_cut hin]
  · split
    · next h => exact .inr fun w hw => by rw [hw]
    · next h => exact .inr fun w hw => by rw [hw]
    · next h =>
      split
      · exact .inr fun w hw => by rw [hw]
      · exact .inl (eats_closure h).first
    · next h => exact .inl (Feeds.first (x := false) (.bump_kind h rfl)).eats
    · next h => exact .inl (Feeds.first (x := false) (.bump_kind h rfl)).eats
    · next hend _ _ _ _ =>
      split
      · exact .inr fun w hw => by rw [hw]
      · exact .inl (Eats.bump (beq_false_of_ne hend)).first

theorem safeAt_patternTokens : SafeAt c i (fun _ => 0) (fun _ w => PatternEnd w) 0 v
    patternTokens patternTokens :=
  .loop (N := id) (S := fun _ => 0) (I := fun _ => True) (J := fun _ => PatternEnd)
    (fun depth _ => safeAt_patternToken depth)
    (fun _ s _ => wlp_of_forall (fun _ _ _ _ _ => trivial) s)
    (fun _ _ => .pure (Nat.le_refl 0)) fun _ _ _ _ hend => hend

theorem safeAt_expressionPatternBody : SafeAt c i (fun _ => 0) (fun _ w => PatternEnd w) 0 v
    (expressionPatternBody binding) (expressionPatternBody binding) := by
  refine .bind safe_patternPrimary.safeAt fun structured w => .kind_bind ?_ ?_
  · split
    · exact .inr rfl
    · next h =>
      have hfed : Eats 0 w patternTokens := (feeds_patternTokens (by simpa using h)).eats
      split
      · exact .inl hfed.wrap
      · exact .inl hfed.node
  · split
    · exact .pure (Nat.le_refl 0)
    · split
      · exact .wrap safeAt_patternTokens
      · exact .node safeAt_patternTokens

theorem safeAt_expressionPattern : SafeAt c i (fun _ => 0) (fun _ w => PatternEnd w) 0 v
    (expressionPattern binding) (expressionPattern binding) := by
  refine .kind_bind (.inl (.of_kind feeds_expressionPattern.eats)) ?_
  split
  · exact .complains Complains.report.first
  · exact .bind_pure (.node safeAt_expressionPatternBody)

/-- An underscore and what does not end a pattern are taken in together. -/
theorem eats_patternTokens (hv : v.kind = .underscore) (h : endsPattern (v.kindAt 1) = false) :
    Eats 1 v patternTokens := by
  rintro s rfl
  have hend : s.view.atEnd = false := View.atEnd_of_kind hv rfl
  have hlt := State.left_consume_lt hend
  -- the first round takes in the underscore, the second one what stands behind it
  refine ⟨fun depth t => (depth = 0 ∧ (t = s ∨ t = s.consume)) ∨
    (t.left + 1 < s.left ∨ t.reports ≠ []), .inl ⟨rfl, .inl rfl⟩, fun depth t ht => ?_⟩
  rcases ht with ⟨rfl, rfl | rfl⟩ | ht
  · refine wlp_view_bind ?_
    rw [hv]
    exact wlp_bind (wlp_bump (.inl ⟨rfl, .inr rfl⟩))
  · have hkind : endsPattern s.consume.view.kind = false := by
      rwa [State.view_consume hend, View.kind_tail]
    refine wlp_mono (fun step u hu => ?_) (feeds_patternToken hkind s.consume rfl)
    have heaten : u.left + 1 < s.left ∨ u.reports ≠ [] :=
      hu.imp (fun hlt' => by omega) And.right
    cases step with
    | again depth => exact .inr heaten
    | stop depth => exact heaten
  · refine wlp_mono (fun step u hu => ?_) (wlp_reaches (patternToken depth) t)
    have heaten : u.left + 1 < s.left ∨ u.reports ≠ [] :=
      ht.imp (fun hlt' => Nat.lt_of_le_of_lt (Nat.succ_le_succ hu.left_le) hlt') hu.reports
    cases step with
    | again depth => exact .inr heaten
    | stop depth => exact heaten

/-- Where the lexeme behind the next one does not end a pattern, an expression takes in both. -/
theorem eats_expressionPattern (hv : v.kind = .underscore ∨ v.kind = .ident)
    (h : endsPattern (v.kindAt 1) = false) : Eats 1 v (expressionPattern binding) := by
  have hgoes : endsPattern v.kind = false := by
    rcases hv with hk | hk <;> rw [hk] <;> rfl
  have hbody : Eats 1 v (expressionPatternBody binding) := by
    refine .assoc (.view_bind ?_)
    rw [if_neg (by rcases hv with hk | hk <;> rw [hk] <;> decide),
      if_neg (by rcases hv with hk | hk <;> simp [hk]),
      if_neg (by rcases hv with hk | hk <;> simp [hk])]
    split
    · next hk =>
      -- the name, and then members and calls or the tokens
      refine .assoc (.leaf_bind (View.atEnd_of_kind hk rfl) (.assoc (Feeds.eats (x := false) ?_)))
      refine .behind steady_patternSuffixes fun _ => .kind_bind ?_
      rw [View.kind_tail, if_neg (by rw [h]; decide)]
      exact .wrap (feeds_patternTokens (by rwa [View.kind_tail]))
    · next hk => exact absurd hv (by rw [hk]; decide)
    · next hk => exact absurd hv (by rw [hk]; decide)
    · next hk => exact absurd hv (by rw [hk]; decide)
    · next hident _ _ _ =>
      have hk : v.kind = .underscore := hv.resolve_right hident
      refine .kind_bind ?_
      rw [if_neg (by rw [hgoes]; decide)]
      exact .node (eats_patternTokens hk h)
  refine .kind_bind ?_
  rw [if_neg (by rw [hgoes]; decide)]
  exact (Eats.node hbody).first

theorem safeAt_primaryPattern (hin : c.behind < v.lexemes.length) :
    SafeAt c i (fun _ => 0) (fun _ w => PatternEnd w) 0 v (primaryPattern binding)
      (primaryPattern binding) := by
  have hbound : ∀ {x : TokenKind}, v.kind = x → x.isOpener = false → SafeAt c i (fun _ => 0)
      (fun _ w => PatternEnd w) 0 v
      (node .valueBindingPattern (do bump; follow' (.pattern true)) >>= fun _ => pure true)
      (node .valueBindingPattern (do bump; follow' (.pattern true)) >>= fun _ => pure true) := by
    intro x hx ho
    refine .bind_pure (.node ?_)
    exact .bind (.bump_kind hx ho) fun _ _ => .follow' trivial fun _ _ hend => hend
  -- a name alone is told by what comes behind it
  have hname : ∀ {x : TokenKind} {kind : NodeKind}, v.kind = x → x = .underscore ∨ x = .ident →
      SafeAt c i (fun _ => 0) (fun _ w => PatternEnd w) 0 v
        (if endsPattern (v.kindAt 1) then node kind bump >>= fun _ => pure true
          else expressionPattern binding)
        (if endsPattern ((v.cut c).kindAt 1) then node kind bump >>= fun _ => pure true
          else expressionPattern binding) := by
    intro x kind hx hname
    cases hnext : endsPattern (v.kindAt 1) with
    | true =>
      have hcut : endsPattern ((v.cut c).kindAt 1) = true := by
        by_cases hin : c.behind + 1 < v.lexemes.length
        · rwa [View.kindAt_cut hin]
        · rw [View.kindAt_cut_end (Nat.le_of_not_lt hin)]
          rfl
      rw [hcut]
      refine .bind_pure (.node (.bump_kind hx ?_))
      rcases hname with rfl | rfl <;> rfl
    | false =>
      refine .eaten (eats_expressionPattern (by rwa [hx]) hnext) fun hin => ?_
      rw [View.kindAt_cut hin, hnext]
      exact safeAt_expressionPattern
  refine .view_bind ?_
  rw [View.kind_cut hin]
  split
  · next h => exact hbound h rfl
  · next h => exact hbound h rfl
  · next h => exact .bind_pure (.introduced h rfl rfl)
  · next h => exact .bind_pure (safeAt_patternList h)
  · next h => exact hname h (.inl rfl)
  · next h =>
    cases binding with
    | true => exact hname h (.inr rfl)
    | false => exact safeAt_expressionPattern
  · exact safeAt_expressionPattern

theorem safeAt_pattern : SafeAt c i (fun _ => 0) (fun _ w => PatternEnd w) 0 v (pattern binding)
    (pattern binding) := by
  refine .eaten feeds_pattern.eats fun hin => .bind_of (Y := fun _ w => PatternEnd w)
    (safeAt_primaryPattern hin) (fun found w => ?_) fun found t _ => ?_
  · cases found with
    | false => exact .pure (Nat.le_refl 0)
    | true =>
      refine .sees_bind rfl (fun h => ?_) (fun h => ?_) fun _ => .pure (Nat.le_refl 0)
      · exact (Feeds.first (x := false) (.wrap (.first (.bump_kind h rfl)))).eats
      · refine .bind (.wrap (.bind (.bump_kind h rfl) fun _ _ => safe_type'.safeAt)) fun _ _ => ?_
        exact .pure (Nat.le_refl 0)
  · -- behind the pattern stands `as`, or it ends there
    cases found with
    | false => exact fun _ hend _ => hend
    | true =>
      refine wlp_sees_bind ?_
      by_cases has : t.view.kind = .kwAs
      · refine wlp_of_forall (fun _ _ _ _ _ => ?_) t
        exact ⟨by rw [has]; decide, by rw [has]; decide⟩
      · rw [if_neg (by simpa using has)]
        exact fun _ hend _ => hend

theorem safe_bindingPattern : Safe c bindingPattern := by
  have hrule : Safe c (follow' .bindingPattern) := .follow' rfl
  refine fun i v => .kind_bind (.inl (.of_kind feeds_bindingPattern.eats)) ?_
  split
  · next h => exact .node (.bump_kind h rfl)
  · next h => exact .node (.bump_kind h rfl)
  · next h =>
    refine .node (.bracketed (by rw [h]; rfl) rfl fun _ => .separatedUntil
      (fun _ _ _ => .inr (Nat.succ_pos i)) fun w => .node ?_)
    exact .bind hrule.safeAt fun _ _ => .pure (Nat.le_refl 0)
  · exact .complains .report

/-! ## Conditions -/

theorem safe_expr {place : Place} : Safe c (follow' (.expr place)) := .follow' rfl

theorem safe_optionalWhereClause : Safe c optionalWhereClause :=
  .ifSees rfl (fun _ h => .node (.first (.bump_kind h rfl))) fun _ _ h =>
    .introduced h rfl rfl

/-- Where no pattern can end, nothing comes that could stand behind one. -/
theorem kind_ne_of_not_patternEnd {x : TokenKind} (h : ¬ PatternEnd v) (heof : x ≠ .eof)
    (hbrace : x ≠ .rBrace) : v.kind ≠ x :=
  fun hx => h ⟨hx ▸ heof, hx ▸ hbrace⟩

/-- Where no `where` clause, type or value comes, a pattern ends in the same place. -/
theorem wlp_ifSees_not {G : Outcomes} {x : TokenKind} {p : Parser Unit} {Q : Unit → State → Prop}
    {s : State} (h : s.view.kind ≠ x) (hQ : Q () s) : wlp G (do if ← sees x then p) Q s := by
  refine wlp_sees_bind ?_
  rw [if_neg (by simpa using h)]
  exact hQ

theorem safe_conditionValue {required : Bool} : Safe c (conditionValue required) := by
  refine fun i v => .sees_bind rfl (fun h => ?_) (fun h => ?_) fun _ => ?_
  · exact (Feeds.node (x := false) (.first (.bump_kind h rfl))).eats
  · exact safeAt_initializerClause h
  · rw [if_neg Bool.false_ne_true]
    exact (Safe.ite (fun _ => .report) fun _ => .pure).safeAt

/-- The type and the value behind a pattern: where neither comes, the pattern ends in the same
    place. -/
theorem wlp_conditionEnd {required : Bool} {t : State} (h : ¬ PatternEnd t.view) :
    wlp (Cutting c) (do optionalAscription; conditionValue required)
      (fun _ u => PatternEnd u.view → u.reports ≠ []) t := by
  have hcolon : t.view.kind ≠ .colon := kind_ne_of_not_patternEnd h (by decide) (by decide)
  have heq : t.view.kind ≠ .eq := kind_ne_of_not_patternEnd h (by decide) (by decide)
  refine wlp_bind (wlp_ifSees_not hcolon (wlp_sees_bind ?_))
  rw [if_neg (by simpa using heq)]
  cases required with
  | true => exact fun _ => List.cons_ne_nil _ _
  | false => exact fun hend => absurd hend h

theorem safeAt_patternCondition {required : Bool} : SafeAt c i (fun _ => 0)
    (fun _ w => PatternEnd w) 0 v (patternCondition required) (patternCondition required) := by
  refine .bind_of (Y := fun _ w => PatternEnd w) (.follow trivial fun _ _ _ hend => hend)
    (fun _ w => ?_) fun _ t _ => ?_
  · exact .bind safe_optionalAscription.safeAt fun _ _ => safe_conditionValue.safeAt
  · by_cases ht : PatternEnd t.view
    · exact wlp_of_forall (fun _ _ _ _ _ => ht) t
    · exact wlp_mono (fun _ _ hu hbounded hend _ => absurd hbounded.clean (hu hend))
        (wlp_conditionEnd ht)

theorem safeAt_conditionBody : SafeAt c i (fun _ => 0) (fun _ w => PatternEnd w) 0 v conditionBody
    conditionBody := by
  refine .kind_bind (.inl (.of_kind feeds_conditionBody.eats)) ?_
  split
  · exact safeAt_patternCondition
  · exact safeAt_patternCondition
  · next h => exact .bind (.bump_kind h rfl) fun _ _ => safeAt_patternCondition
  · exact safe_expr.safeAt

/-- Conditions with something behind them, and no closing brace. -/
theorem safeAt_conditions : SafeAt c i (fun _ => 0) (fun _ w => PatternEnd w) 0 v conditions
    conditions := by
  refine .separated_of fun w => .bind_pure (.node (.mono (fun _ u hu => ?_) safeAt_conditionBody))
  exact hu.elim (fun hk => ⟨by rw [hk]; decide, by rw [hk]; decide⟩) id

/-! ## Statements inside expressions -/

/-- Conditions with a block behind them. -/
theorem safe_conditionsBlock {β : Type} {f : Unit → Parser β} (hf : Safe c (f ())) :
    Safe c (conditions >>= fun _ => codeBlock >>= f) := by
  refine fun i v => .bind_unless safeAt_conditions (fun _ _ => ?_) fun _ w hw => ?_
  · exact .bind safe_codeBlock.safeAt fun _ _ => hf.safeAt
  · have hbrace : w.kind ≠ .lBrace := kind_ne_of_not_patternEnd hw (by decide) (by decide)
    exact (complains_codeBlock hbrace).first

theorem safe_elseBranch : Safe c elseBranch := by
  refine .bind (.eat rfl rfl) fun found => .ite (fun _ => fun i v => ?_) fun _ => .pure
  refine .sees_bind rfl (fun _ => (Feeds.follow' rfl).eats) (fun h => ?_)
    fun _ => safe_codeBlock i v
  exact .follow' h fun _ _ _ => trivial

theorem safeAt_ifBody {X : Unit → View → Prop} (h : v.kind = .kwIf) :
    SafeAt c i (fun _ => 0) X 0 v ifBody ifBody :=
  .bind (.bump_kind h rfl) fun _ _ => (safe_conditionsBlock safe_elseBranch).safeAt

theorem safeAt_switchBody {X : Unit → View → Prop} (h : v.kind = .kwSwitch) :
    SafeAt c i (fun _ => 0) X 0 v switchBody switchBody := by
  refine .bind (.bump_kind h rfl) fun _ _ => .bind safe_expr.safeAt fun _ _ => ?_
  refine .bind (k := fun found => if found then 1 else 0) (.expect_of rfl fun hv => ?_)
    fun found _ => ?_
  · exact .bump_opener (by rw [hv]; rfl)
  · cases found with
    | true => exact .items
    | false => exact .pure (Nat.le_refl 0)

/-! ## Expressions -/

/-- An operator that begins a line tells whether that goes on unless it is the last lexeme. -/
theorem exprEnds_cut {place : Place} {r : Run} (hcut : Cuttable c v.lexemes)
    (hin : c.behind < v.lexemes.length) : exprEnds place (v.cut c) r = exprEnds place v r := by
  have hcontinues : v.gap.newline = true → continuesExpr (v.cut c) r = continuesExpr v r := by
    intro hnewline
    by_cases hnext : c.behind + 1 < v.lexemes.length
    · rw [continuesExpr, continuesExpr, View.kind_cut hin, View.gapAt_cut hnext]
    · -- the gap behind the last lexeme is not seen, which matters for operators alone
      cases hls : v.lexemes with
      | nil => simp [hls] at hin
      | cons l rest =>
        have hlast : l.leadsLine = false := by
          refine hcut.last l rest (by rw [hls]) ?_
          rw [hls, List.length_cons] at hin hnext
          omega
        have hkind : v.kind = l.kind := SafeAt.kind_of_cons hls
        have hgap : v.gap = l.gap := by
          rw [View.gap, View.gapAt, hls]
          rfl
        rw [Lexeme.leadsLine, ← hgap, hnewline, Bool.true_and, ← hkind] at hlast
        rw [continuesExpr, continuesExpr, View.kind_cut hin]
        generalize v.kind = k at hlast ⊢
        cases k <;> first | rfl | cases hlast
  rw [exprEnds, exprEnds, View.kind_cut hin, View.gap_cut hin]
  cases hnewline : v.gap.newline with
  | false => simp only [Bool.and_false, Bool.false_and]
  | true => rw [hcontinues hnewline]

theorem plainLexeme_cut {r : Run} (hin : c.behind < v.lexemes.length) :
    plainLexeme (v.cut c) r = plainLexeme v r := by
  have hwants : wantsOperandAfter (v.cut c) = wantsOperandAfter v := by
    rw [wantsOperandAfter, wantsOperandAfter, View.kind_cut hin, View.gap_cut hin,
      View.spells_cut hin]
  rw [plainLexeme, plainLexeme, View.kind_cut hin, hwants]

theorem safeAt_plainLexeme {r : Run} {X : Step Run → View → Prop} (h : v.kind.isOpener = false) :
    SafeAt c i (roundEnd Run.depth Run.depth) X r.depth v (plainLexeme v r) (plainLexeme v r) :=
  .bind (.bump h) fun _ _ => .pure (Nat.le_refl r.depth)

/-- A step of an expression before the cut. What a question mark is may be told by the gap behind
    the lexeme. -/
theorem safeAt_exprStep {place : Place} {r : Run} (hin : c.behind < v.lexemes.length)
    (hquestion : v.kind = .question → v.gap.trivia = false) :
    SafeAt c i (roundEnd Run.depth Run.depth) anyEnd r.depth v (exprStep place r)
      (exprStep place r) := by
  -- a closing bracket ends the expression unless one has been opened in it
  have hclose : v.kind.isCloser = true →
      SafeAt c i (roundEnd Run.depth Run.depth) anyEnd r.depth v
        (if r.depth == 0 then pure (.stop r) else do
          bump
          pure (.again { r.push v.kind false with depth := r.depth - 1 }))
        (if r.depth == 0 then pure (.stop r) else do
          bump
          pure (.again { r.push v.kind false with depth := r.depth - 1 })) := by
    intro hk
    split
    · exact .pure (Nat.le_refl _)
    · next hdepth =>
      obtain ⟨depth, hsucc⟩ := Nat.exists_eq_succ_of_ne_zero (by simpa using hdepth)
      rw [hsucc]
      exact .bind (.bump_closer hk) fun _ _ => .pure (Nat.le_refl depth)
  refine .view_decided ?_ fun hcut _ hcloses => ?_
  · dsimp only
    split
    · exact .pure (Nat.le_refl _)
    · split
      · exact .pure (Nat.le_refl _)
      · exact .pure (Nat.le_refl _)
      · exact .pure (Nat.le_refl _)
      · exact .pure (Nat.le_refl _)
      · exact .pure (Nat.le_refl _)
      · exact .pure (Nat.le_refl _)
      · next h => exact .bind (.bump_opener (by rw [h]; rfl)) fun _ _ => .pure (Nat.le_refl _)
      · next h => exact .bind (.bump_opener (by rw [h]; rfl)) fun _ _ => .pure (Nat.le_refl _)
      · next h => exact hclose (by rw [h]; rfl)
      · next h => exact hclose (by rw [h]; rfl)
      · next h =>
        split
        · exact .pure (Nat.le_refl _)
        · refine .bind (.shift (safeAt_closure h)) fun _ _ => ?_
          exact .bind safe_trailingClosures.safeAt fun _ _ => .pure (Nat.le_refl r.depth)
      · next h =>
        split
        · refine .bind (.shift (.follow' h fun _ _ _ => trivial)) fun _ _ => ?_
          exact .pure (Nat.le_refl r.depth)
        · exact safeAt_plainLexeme (by rw [h]; rfl)
      · next h =>
        split
        · refine .bind (.shift (.node (safeAt_switchBody h))) fun _ _ => ?_
          exact .pure (Nat.le_refl r.depth)
        · exact safeAt_plainLexeme (by rw [h]; rfl)
      · next h =>
        rw [hquestion h, Bool.false_and, if_neg Bool.false_ne_true]
        exact safeAt_plainLexeme (by rw [h]; rfl)
      · next h =>
        split
        · exact .bind (.bump_kind h rfl) fun _ _ => .pure (Nat.le_refl r.depth)
        · exact safeAt_plainLexeme (by rw [h]; rfl)
      · refine safeAt_plainLexeme ?_
        cases hk : v.kind <;> first | rfl | contradiction
  · dsimp only
    rw [View.kind_cut hin, exprEnds_cut hcut hin, plainLexeme_cut hin, View.gap_cut hin]
    refine if_congr Iff.rfl rfl ?_
    split <;> try rfl
    · next h =>
      rw [hcloses.blind hin (by rw [h]; rfl) hcut fun _ _ _ => Lookahead.blind_atObservers]
    · next h =>
      rw [hquestion h, Bool.false_and, Bool.false_and]

/-- What is taken in where a question mark stands between blanks or behind one. -/
def questionRun (r : Run) (ternary : Bool) : Run :=
  if ternary then { r.push .question true with ternaries := r.ternaries + 1 }
  else r.push .question true

/-- A question mark behind a blank never ends an expression. -/
theorem exprStep_question (place : Place) (r : Run) : ∃ next, exprStep place r = .look next ∧
    ∀ w : View, w.kind = .question → w.gap.trivia = true →
      next w = bump >>= fun _ => pure (.again (questionRun r (w.gapAt 1).trivia)) := by
  refine ⟨_, rfl, fun w hk hgap => ?_⟩
  have hends : exprEnds place w r = false := by
    have hword : TokenKind.isKeyword .question = false := rfl
    rw [exprEnds, hk, continuesExpr, hk]
    simp [hword]
  have hwants : wantsOperandAfter w = true := by
    rw [wantsOperandAfter, hk]
    exact hgap
  dsimp only [andThen]
  rw [hends, hk, hgap, Bool.and_false, if_neg Bool.false_ne_true, Bool.true_and]
  cases htrivia : (w.gapAt 1).trivia with
  | true => rfl
  | false =>
    rw [plainLexeme, hwants, hk]
    rfl

/-- At the end of the text an expression ends. -/
theorem exprStep_end (place : Place) (r : Run) : ∃ next, exprStep place r = .look next ∧
    ∀ w : View, w.kind = .eof → next w = .done (.stop r) := by
  refine ⟨_, rfl, fun w hk => ?_⟩
  dsimp only [andThen]
  rw [hk]
  split <;> rfl

/-- A step that takes in nothing ends the expression. -/
theorem wlp_exprStep {place : Place} {r : Run} (s : State) : wlp Filling (exprStep place r)
    (fun step t => (step = .stop r ∧ t = s) ∨ t.left < s.left ∨ t.reports ≠ []) s := by
  have hstop : wlp Filling (pure (.stop r) : Parser (Step Run))
      (fun step t => (step = .stop r ∧ t = s) ∨ t.left < s.left ∨ t.reports ≠ []) s :=
    .inl ⟨rfl, rfl⟩
  have heats : ∀ {p : Parser (Step Run)}, Eats 0 s.view p → wlp Filling p
      (fun step t => (step = .stop r ∧ t = s) ∨ t.left < s.left ∨ t.reports ≠ []) s :=
    fun h => wlp_mono (fun _ _ ht => .inr ht) (h s rfl)
  have hplain : s.view.atEnd = false → Eats 0 s.view (plainLexeme s.view r) :=
    fun h => (Eats.bump h).first
  refine wlp_view_bind ?_
  dsimp only
  -- a step that does not stop begins with a lexeme or with the text of a rule
  split
  · exact hstop
  · split
    · exact hstop
    · exact hstop
    · exact hstop
    · exact hstop
    · exact hstop
    · exact hstop
    · next h => exact heats (Eats.bump (View.atEnd_of_kind h rfl)).first
    · next h => exact heats (Eats.bump (View.atEnd_of_kind h rfl)).first
    · next h =>
      split
      · exact hstop
      · exact heats (Eats.bump (View.atEnd_of_kind h rfl)).first
    · next h =>
      split
      · exact hstop
      · exact heats (Eats.bump (View.atEnd_of_kind h rfl)).first
    · next h =>
      split
      · exact hstop
      · exact heats (eats_closure h).first
    · next h =>
      split
      · exact heats (Feeds.follow' rfl).eats.first
      · exact heats (hplain (View.atEnd_of_kind h rfl))
    · next h =>
      split
      · exact heats (Eats.node (Eats.bump (View.atEnd_of_kind h rfl)).first).first
      · exact heats (hplain (View.atEnd_of_kind h rfl))
    · next h =>
      split
      · exact heats (Eats.bump (View.atEnd_of_kind h rfl)).first
      · exact heats (hplain (View.atEnd_of_kind h rfl))
    · next h =>
      split
      · exact heats (Eats.bump (View.atEnd_of_kind h rfl)).first
      · exact heats (hplain (View.atEnd_of_kind h rfl))
    · next _ hend _ _ _ _ _ _ _ _ _ _ _ _ _ _ =>
      exact heats (hplain (by simpa [View.atEnd] using hend))

/-- Expressions under way that take in the same before the cut. At the cut it no longer matters how
    many colons are to come. -/
def Run.Alike (c : Cut) (w : View) (y z : Run) : Prop :=
  z = y ∨ (w.lexemes.length ≤ c.behind ∧ z = { y with ternaries := z.ternaries })

theorem Run.Alike.depth {w : View} {y z : Run} (h : Run.Alike c w y z) : z.depth = y.depth := by
  rcases h with rfl | ⟨-, h⟩
  · rfl
  · rw [h]

/-- A round of an expression does on the front part what it does on the text. -/
def RoundAlike (c : Cut) (i : Nat) (place : Place) (y z : Run) (s : State) : Prop :=
  wlp (Cutting c) (exprStep place y) (fun step t =>
    t.Bounded c (roundEnd Run.depth Run.depth step + i) →
      s.Spans c (roundEnd Run.depth Run.depth step) y.depth t ∧
        ∀ E step' t', Proceeds body E (exprStep place z) (s.cut c) step' t' →
          Step.Same (Run.Alike c t.view) step step' ∧ t' = t.cut c) s

/-- A question mark that is the last lexeme before the cut may be taken for another one, since the
    gap behind it is missing. -/
theorem roundAlike_question {place : Place} {r : Run} {s : State} (hlies : s.Lies c)
    (hin : c.behind < s.left) (hk : s.view.kind = .question) (hgap : s.view.gap.trivia = true) :
    RoundAlike c i place r r s := by
  obtain ⟨next, hstep, hnext⟩ := exprStep_question place r
  have hdepth : ∀ b, (questionRun r b).depth = r.depth := fun b => by cases b <;> rfl
  have hlt : s.consume.left < s.left := State.left_consume_lt (View.atEnd_of_kind hk rfl)
  have hbump := SafeAt.bump_kind (c := c) (i := i) (n := r.depth) (X := anyEnd) hk rfl s rfl hlies
  rw [RoundAlike, hstep]
  show wlp _ (next s.view) _ s
  rw [hnext _ hk hgap]
  intro hbounded
  rw [show roundEnd Run.depth Run.depth (.again (questionRun r (s.view.gapAt 1).trivia)) = r.depth
    from hdepth _] at hbounded ⊢
  obtain ⟨hspans, hrepeats⟩ := hbump hbounded trivial
  refine ⟨hspans, fun E step' t' hrun => ?_⟩
  cases hrun with
  | look rest =>
    have hfront : Proceeds body E (next (s.view.cut c)) (s.cut c) step' t' := rest
    rw [hnext _ ((View.kind_cut hin).trans hk)
      ((congrArg Gap.trivia (View.gap_cut hin)).trans hgap)] at hfront
    obtain ⟨a, u, hu, hdone⟩ := Proceeds.exists_of_andThen hfront
    obtain ⟨-, rfl⟩ := hrepeats _ _ _ hu
    cases hdone with
    | done =>
      refine ⟨.again ?_, rfl⟩
      -- the two runs differ only where nothing is left to be read by them
      by_cases hbefore : c.behind + 1 < s.left
      · exact .inl (by rw [View.gapAt_cut hbefore])
      · have hend : s.consume.view.lexemes.length ≤ c.behind :=
          Nat.le_of_lt_succ (Nat.lt_of_lt_of_le hlt (Nat.le_of_not_lt hbefore))
        refine .inr ⟨hend, ?_⟩
        cases (s.view.gapAt 1).trivia <;> cases ((s.view.cut c).gapAt 1).trivia <;> rfl

/-- At the cut an expression ends. -/
theorem roundAlike_end {place : Place} {y z : Run} {s : State} (hR : Run.Alike c s.view y z)
    (hend : s.left ≤ c.behind) : RoundAlike c i place y z s := by
  refine wlp_mono (fun step t ht hbounded => ?_) (wlp_cutting (wlp_exprStep s))
  rcases ht with ⟨rfl, rfl⟩ | hlt | hreports
  · refine ⟨.refl (Nat.le_refl _), fun E step' t' hrun => ?_⟩
    obtain ⟨next, hstep, hnext⟩ := exprStep_end place z
    rw [hstep] at hrun
    cases hrun with
    | look rest =>
      have hfront : Proceeds body E (next (t.view.cut c)) (t.cut c) step' t' := rest
      rw [hnext _ (View.kind_cut_end hend)] at hfront
      cases hfront with
      | done => exact ⟨.stop hR, rfl⟩
  · exact absurd (Nat.lt_of_le_of_lt hbounded.within hlt) (Nat.not_lt.mpr hend)
  · exact absurd hbounded.clean hreports

theorem roundAlike {place : Place} {y z : Run} {s : State} (hR : Run.Alike c s.view y z)
    (hlies : s.Lies c) : RoundAlike c i place y z s := by
  by_cases hin : c.behind < s.left
  · -- before the cut both are the same
    obtain rfl : z = y := hR.resolve_right fun h => Nat.not_le.mpr hin h.1
    by_cases hquestion : s.view.kind = .question ∧ s.view.gap.trivia = true
    · exact roundAlike_question hlies hin hquestion.1 hquestion.2
    · have hsafe : SafeAt c i (roundEnd Run.depth Run.depth) anyEnd z.depth s.view
          (exprStep place z) (exprStep place z) :=
        safeAt_exprStep hin fun hk => Bool.eq_false_iff.mpr fun hgap => hquestion ⟨hk, hgap⟩
      refine wlp_mono (fun step t ht hbounded => ?_) (hsafe s rfl hlies)
      obtain ⟨hspans, hrepeats⟩ := ht hbounded trivial
      refine ⟨hspans, fun E step' t' hrun => ?_⟩
      obtain ⟨rfl, rfl⟩ := hrepeats E step' t' hrun
      refine ⟨?_, rfl⟩
      cases step' with
      | again x => exact .again (.inl rfl)
      | stop x => exact .stop (.inl rfl)
  · exact roundAlike_end hR (Nat.le_of_not_lt hin)

theorem safe_expression {place : Place} : Safe c (expression place) := by
  refine fun i v => .kind_bind (.inl (.of_kind feeds_expression.eats)) ?_
  split
  · refine .bind_pure (.node (.loop_of (N := Run.depth) (S := Run.depth) (I := fun _ => True)
      (J := fun _ _ => True) (R := Run.Alike c) (fun _ _ => .inl rfl) (fun y z s hR hlies => ?_)
      (fun y z w hR => ?_) fun y t _ => wlp_of_forall (fun _ _ _ _ => trivial) t))
    · have hround : RoundAlike c i place y z s := roundAlike hR hlies
      refine wlp_mono (fun step t ht hbounded _ => ?_) hround
      obtain ⟨hspans, hsame⟩ := ht hbounded
      exact ⟨hspans, trivial, hsame⟩
    · rw [hR.depth]
      split
      · exact .complains .report
      · next hdepth => exact .pure (Nat.le_of_not_lt hdepth)
  · exact .complains (.first .report)

end Grammar

end SwiftOutline
