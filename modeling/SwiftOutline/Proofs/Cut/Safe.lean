/-
  SwiftOutline.Proofs.Cut.Safe

  Programs that do the same on a front part of a text. Wherever a run without
  problems ends before the cut or at it, the run on the front part ends in the
  same way. A program is told to be safe by its parts: where it looks past the
  cut, it goes on to consume what it has seen there, and so does not end before
  the cut, or else what it sees there makes no difference.
-/
import SwiftOutline.Proofs.Filled.Item
import SwiftOutline.Proofs.Cut.State

namespace SwiftOutline

namespace Parser

open Grammar (body)

/-- Wherever `q`, run on the front part of what is left in `s`, comes to an end, it does so with the
    result `a`, and the front part of what is left in `t`. -/
def Repeats {α : Type} (c : Cut) (q : Parser α) (s : State) (a : α) (t : State) : Prop :=
  ∀ E a' t', Proceeds body E q (s.cut c) a' t' → a' = a ∧ t' = t.cut c

/-- Another branch of an `#if` block begins here, or the block ends. -/
def EndsBranch (k : TokenKind) : Prop := k = .poundElseif ∨ k = .poundElse ∨ k = .poundEndif

/-- A list of items ends before a bracket or directive, and if it ends with a branch of an `#if`
    block, then the block begins in the front part. -/
def ItemsEnd (c : Cut) (v : View) : Prop :=
  v.Walled c ∧ (EndsBranch v.kind → c.outer < v.directives)

/-- A pattern ends neither at a closing brace nor at the end of the text, since it may leave
    brackets open there. -/
def PatternEnd (v : View) : Prop := v.kind ≠ .eof ∧ v.kind ≠ .rBrace

/-- Where the end of a rule has to be known for the rule to be safe. -/
def SafeEnd (c : Cut) : Rule → View → Prop
  | .items _, v => ItemsEnd c v
  | .pattern _, v => PatternEnd v
  | _, _ => True

/-- Where the beginning of a rule has to be known for the rule to be safe: an `if` begins with its
    word. -/
def SafeBegin : Rule → View → Prop
  | .ifStmt, v => v.kind = .kwIf
  | _, _ => True

/-- Rules that are safe wherever they begin and end. -/
def isPlainRule : Rule → Bool
  | .type | .bindingPattern | .expr _ => true
  | _ => false

theorem safeBegin_of_isPlainRule {r : Rule} {v : View} (h : isPlainRule r = true) :
    SafeBegin r v := by
  cases r <;> first | exact trivial | cases h

theorem safeEnd_of_isPlainRule {c : Cut} {r : Rule} {v : View} (h : isPlainRule r = true) :
    SafeEnd c r v := by
  cases r <;> first | exact trivial | cases h

/-- What is known of a rule that is followed from `s` up to `t`, if the text is cut off behind. -/
structure Cutting (c : Cut) (r : Rule) (s : State) (found : Bool) (t : State) : Prop
    extends Filling r s found t where
  directives : t.view.directives = s.view.directives
  safe : SafeBegin r s.view → s.Lies c → t.Bounded c 0 → SafeEnd c r t.view →
    s.Spans c 0 0 t ∧ Repeats c (body r) s found t

variable {α β σ : Type} {c : Cut} {G G' : Outcomes}

/-! ## Runs -/

/-- A run of one program behind another is made of two runs. -/
theorem Proceeds.exists_of_andThen {body : Rule → Parser Bool} {E : List Entry} {p : Parser α}
    {f : α → Parser β} {s u : State} {b : β} (h : Proceeds body E (p.andThen f) s b u) :
    ∃ a t, Proceeds body E p s a t ∧ Proceeds body E (f a) t b u := by
  induction p generalizing s with
  | done a => exact ⟨a, s, .done, h⟩
  | look next ih =>
    cases h with
    | look rest =>
      obtain ⟨a, t, hp, hf⟩ := ih _ rest
      exact ⟨a, t, .look hp, hf⟩
  | consume next ih =>
    cases h with
    | consume rest =>
      obtain ⟨a, t, hp, hf⟩ := ih rest
      exact ⟨a, t, .consume hp, hf⟩
  | complain p next ih =>
    cases h with
    | complain rest =>
      obtain ⟨a, t, hp, hf⟩ := ih rest
      exact ⟨a, t, .complain hp, hf⟩
  | group adopt inner next _ ih =>
    cases h with
    | group inside rest =>
      obtain ⟨a, t, hp, hf⟩ := ih _ rest
      exact ⟨a, t, .group inside hp, hf⟩
  | directive inner next _ ih =>
    cases h with
    | directive inside rest =>
      obtain ⟨a, t, hp, hf⟩ := ih _ rest
      exact ⟨a, t, .directive inside hp, hf⟩
  | call r next ih =>
    cases h with
    | call eaten inside rest =>
      obtain ⟨a, t, hp, hf⟩ := ih _ rest
      exact ⟨a, t, .call eaten inside hp, hf⟩
  | loop round init next _ ih =>
    -- every round but the last has consumed a lexeme
    generalize hn : s.left = n
    induction n using Nat.strongRecOn generalizing init s with
    | ind n ihn =>
      cases h with
      | stop inside rest =>
        obtain ⟨a, t, hp, hf⟩ := ih _ rest
        exact ⟨a, t, .stop inside hp, hf⟩
      | @again _ _ _ _ _ _ w _ _ y _ inside eaten later =>
        have hlater : Proceeds body E ((Parser.loop round y next).andThen f) w b u := later
        obtain ⟨a, t, hp, hf⟩ := ihn _ (hn ▸ eaten) _ hlater rfl
        exact ⟨a, t, .again inside eaten hp, hf⟩

/-- Steps may be grouped in either way. -/
theorem andThen_assoc {γ : Type} (p : Parser α) (f : α → Parser β) (g : β → Parser γ) :
    (p.andThen f).andThen g = p.andThen fun a => (f a).andThen g := by
  induction p with
  | done a => rfl
  | look next ih => exact congrArg Parser.look (funext fun v => ih v f)
  | consume next ih => exact congrArg Parser.consume (ih f)
  | complain p next ih => exact congrArg (Parser.complain p) (ih f)
  | group adopt body next _ ih => exact congrArg (Parser.group adopt body) (funext fun b => ih b f)
  | directive body next _ ih => exact congrArg (Parser.directive body) (funext fun b => ih b f)
  | call r next ih => exact congrArg (Parser.call r) (funext fun b => ih b f)
  | loop round init next _ ih => exact congrArg (Parser.loop round init) (funext fun s => ih s f)

/-- Where the rules guarantee more, programs do. -/
theorem wlp_of_outcomes {p : Parser α} {Q : α → State → Prop} {s : State}
    (hG : ∀ r s b t, G' r s b t → G r s b t) (h : wlp G p Q s) : wlp G' p Q s := by
  induction p generalizing s with
  | done a => exact h
  | look next ih => exact ih _ h
  | consume next ih => exact ih h
  | complain p next ih => exact ih h
  | group adopt body next ihb ihn =>
    rw [wlp]
    exact wlp_mono (fun r t ht => ihn _ ht) (ihb h)
  | directive body next ihb ihn =>
    rw [wlp]
    exact wlp_mono (fun b t ht => ihn _ ht) (ihb h)
  | call r next ih => exact fun b t hr => ih b (h b t (hG r s b t hr))
  | loop round init next ihr ihn =>
    obtain ⟨I, hinit, hround⟩ := h
    refine ⟨I, hinit, fun a t ht => wlp_mono (fun step u hu => ?_) (ihr a (hround a t ht))⟩
    cases step with
    | again b => exact hu
    | stop b => exact ihn b hu

theorem wlp_cutting {p : Parser α} {Q : α → State → Prop} {s : State} (h : wlp Filling p Q s) :
    wlp (Cutting c) p Q s :=
  wlp_of_outcomes (fun _ _ _ _ hr => hr.toFilling) h

/-- What every program does: it consumes, and ends inside as many `#if` blocks as it began in. -/
theorem wlp_steps (p : Parser α) (s : State) : wlp (Cutting c) p
    (fun _ t => s.Reaches t ∧ t.view.directives = s.view.directives) s := by
  refine wlp_and (wlp_cutting (wlp_reaches p s)) ?_
  induction p generalizing s with
  | done a => rfl
  | look next ih => exact ih _ s
  | consume next ih =>
    refine wlp_mono (fun _ _ h => h.trans ?_) (ih s.consume)
    unfold State.consume
    split
    · rfl
    · split <;> rfl
  | complain p next ih => exact ih (s.complain p)
  | group adopt body next ihb ihn =>
    rw [wlp]
    exact wlp_mono (fun r t h => wlp_mono (fun _ _ h' => h'.trans h) (ihn r.1 _)) (ihb _)
  | directive body next ihb ihn =>
    rw [wlp]
    exact wlp_mono (fun b t _ => ihn b (t.withDirectives s.view.directives)) (ihb _)
  | call r next ih => exact fun b t h => wlp_mono (fun _ _ h' => h'.trans h.directives) (ih b t)
  | loop round init next ihr ihn =>
    refine ⟨fun _ t => t.view.directives = s.view.directives, rfl, fun a t ht => ?_⟩
    refine wlp_mono (fun step u hu => ?_) (ihr a t)
    cases step with
    | again b => exact hu.trans ht
    | stop b => exact wlp_mono (fun _ _ h => (h.trans hu).trans ht) (ihn b u)

/-! ## Eating -/

/-- `p` consumes more than `n` lexemes wherever `v` is seen, or else a problem has been reported. -/
def Eats (n : Nat) (v : View) (p : Parser α) : Prop :=
  ∀ s, s.view = v → wlp Filling p (fun _ t => t.left + n < s.left ∨ t.reports ≠ []) s

/-- `p` reports a problem wherever `v` is seen. -/
def Complains (v : View) (p : Parser α) : Prop :=
  ∀ s, s.view = v → wlp Filling p (fun _ t => t.reports ≠ []) s

section Eats

variable {n : Nat} {x : Bool} {v : View} {p : Parser α} {f : α → Parser β}

theorem Feeds.eats (h : Feeds x v p) : Eats 0 v p :=
  fun s hs => wlp_mono (fun _ _ ht => ht.imp_right And.right) (h s hs)

theorem Complains.eats (h : Complains v p) : Eats n v p :=
  fun s hs => wlp_mono (fun _ _ ht => .inr ht) (h s hs)

theorem Eats.feeds (h : Eats n v p) : Feeds false v p := fun s hs =>
  wlp_mono (fun _ _ ht => ht.imp (fun hlt => by omega) fun hr => ⟨rfl, hr⟩) (h s hs)

/-- What is decided by looking. -/
theorem Eats.of_view {f : View → Parser α} (h : Eats n v (view >>= f)) : Eats n v (f v) := by
  rintro s rfl
  exact h s rfl

theorem Eats.of_kind {f : TokenKind → Parser α} (h : Eats n v (kind >>= f)) :
    Eats n v (f v.kind) :=
  .of_view (f := fun w => f w.kind) h

theorem Eats.view_bind {f : View → Parser α} (h : Eats n v (f v)) : Eats n v (view >>= f) := by
  rintro s rfl
  exact h s rfl

theorem Eats.kind_bind {f : TokenKind → Parser α} (h : Eats n v (f v.kind)) :
    Eats n v (kind >>= f) :=
  .view_bind (f := fun w => f w.kind) h

theorem Eats.bump (hv : v.atEnd = false) : Eats 0 v Parser.bump :=
  Feeds.eats (x := false) (.bump hv)

/-- What comes behind a lexeme that is consumed eats the others. -/
theorem Eats.bump_bind {f : Unit → Parser β} (hv : v.atEnd = false) (h : Eats n v.tail (f ())) :
    Eats (n + 1) v (Parser.bump >>= f) := by
  rintro s rfl
  have hlt := State.left_consume_lt hv
  exact wlp_bind (wlp_bump (wlp_mono (fun _ _ ht => ht.imp_left fun hlt' => by omega)
    (h s.consume (State.view_consume hv))))

/-- What comes behind a lexeme with a node of its own eats the others. -/
theorem Eats.leaf_bind {kind : NodeKind} {f : Unit → Parser β} (hv : v.atEnd = false)
    (h : Eats n v.tail (f ())) : Eats (n + 1) v (Parser.node kind Parser.bump >>= f) := by
  rintro s rfl
  have hlt : (s.start false).consume.left < s.left := State.left_consume_lt hv
  have hview : (s.start false).consume.view = s.view.tail := State.view_consume hv
  have hrest := h ((s.start false).consume.finish s false (some kind)) hview
  refine wlp_bind (wlp_andThen (wlp_bump ?_))
  show wlp Filling (f ()) _ ((s.start false).consume.finish s false (some kind))
  refine wlp_mono (fun _ _ ht => ht.imp_left fun hlt' => ?_) hrest
  exact Nat.lt_of_le_of_lt (Nat.succ_le_of_lt hlt') hlt

/-- Steps may be grouped in either way. -/
theorem Eats.assoc {γ : Type} {g : β → Parser γ} (h : Eats n v (p >>= fun a => f a >>= g)) :
    Eats n v ((p >>= f) >>= g) := by
  have hsame : (p >>= f) >>= g = p >>= fun a => f a >>= g := andThen_assoc p f g
  rwa [hsame]

/-- The first step decides. -/
theorem Eats.first (h : Eats n v p) : Eats n v (p >>= f) := by
  refine fun s hs => wlp_bind (wlp_mono (fun a t ht => ?_) (h s hs))
  refine wlp_mono (fun _ u hu => ?_) (wlp_reaches (f a) t)
  exact ht.imp (fun hlt => Nat.lt_of_le_of_lt (Nat.add_le_add_right hu.left_le n) hlt) hu.reports

/-- What comes behind the first step decides. -/
theorem Eats.last (h : ∀ a w, Eats n w (f a)) : Eats n v (p >>= f) := by
  refine fun s _ => wlp_bind (wlp_mono (fun a t ht => ?_) (wlp_reaches p s))
  exact wlp_mono (fun _ u hu => hu.imp_left fun hlt => Nat.lt_of_lt_of_le hlt ht.left_le)
    (h a t.view t rfl)

/-- Both steps eat. -/
theorem Eats.both (hp : Eats n v p) (hf : ∀ a w, Eats 0 w (f a)) : Eats (n + 1) v (p >>= f) := by
  refine fun s hs => wlp_bind (wlp_mono (fun a t ht => ?_) (hp s hs))
  rcases ht with hlt | hreports
  · exact wlp_mono (fun _ _ hu => hu.imp_left fun hlt' => by omega) (hf a t.view t rfl)
  · exact wlp_mono (fun _ _ hu => .inr (hu.reports hreports)) (wlp_reaches (f a) t)

theorem Eats.node {k : NodeKind} (h : Eats n v p) : Eats n v (node k p) :=
  fun s hs => wlp_andThen (h (s.start false) hs)

theorem Eats.wrap {k : NodeKind} (h : Eats n v p) : Eats n v (wrap k p) :=
  fun s hs => wlp_andThen (h (s.start true) hs)

theorem Complains.report {problem : Problem} : Complains v (report problem) :=
  fun _ _ => List.cons_ne_nil _ _

theorem Complains.first (h : Complains v p) : Complains v (p >>= f) := by
  refine fun s hs => wlp_bind (wlp_mono (fun a t ht => ?_) (h s hs))
  exact wlp_mono (fun _ u hu => hu.reports ht) (wlp_reaches (f a) t)

theorem Complains.recover {problem : Problem} : Complains v (recover problem) :=
  .first .report

end Eats

/-! ## Safe programs -/

/-- Wherever `v` is seen, `q` does on the front part of a text what `p` does on the text, if the run
    of `p` ends without problems before the cut, and as `X` says. Brackets that are open around the
    run, `i` of them, are closed before the cut; of those that it opens or closes by itself,
    `m` are open where it begins and `k` where it ends. -/
def SafeAt (c : Cut) (i : Nat) (k : α → Nat) (X : α → View → Prop) (m : Nat) (v : View)
    (p q : Parser α) : Prop :=
  ∀ s, s.view = v → s.Lies c → wlp (Cutting c) p (fun a t =>
    t.Bounded c (k a + i) → X a t.view → s.Spans c (k a) m t ∧ Repeats c q s a t) s

/-- Nothing has to be known of the end. -/
abbrev anyEnd : α → View → Prop := fun _ _ => True

/-- `p` does on the front part of a text what it does on the text. -/
def Safe (c : Cut) (p : Parser α) : Prop :=
  ∀ i v, SafeAt c i (fun _ => 0) anyEnd 0 v p p

section SafeAt

variable {i m n : Nat} {k : α → Nat} {l : β → Nat} {X Y : α → View → Prop} {Z : β → View → Prop}
  {v : View} {p q : Parser α} {f g : α → Parser β}

namespace SafeAt

/-! ### What need not be shown -/

/-- Nothing has to be shown where the cut has been passed. -/
theorem within (h : c.behind ≤ v.lexemes.length → SafeAt c i k X m v p q) :
    SafeAt c i k X m v p q := by
  rintro s rfl hlies
  by_cases hle : c.behind ≤ s.left
  · exact h hle s rfl hlies
  · refine wlp_mono (fun a t ht hbounded => ?_) (wlp_steps p s)
    exact absurd (Nat.le_trans hbounded.within ht.1.left_le) hle

/-- Nothing has to be shown where more is consumed than stands before the cut. -/
theorem eaten (hp : Eats n v p) (h : c.behind + n < v.lexemes.length → SafeAt c i k X m v p q) :
    SafeAt c i k X m v p q := by
  rintro s rfl hlies
  by_cases hlt : c.behind + n < s.left
  · exact h hlt s rfl hlies
  · refine wlp_mono (fun a t ht hbounded => ?_) (wlp_cutting (hp s rfl))
    rcases ht with hlt' | hreports
    · have hwithin := hbounded.within
      exact absurd (by omega) hlt
    · exact absurd hbounded.clean hreports

/-- Nothing has to be shown where a problem is reported. -/
theorem complains (hp : Complains v p) : SafeAt c i k X m v p q :=
  fun s hs _ => wlp_mono (fun _ _ ht hbounded => absurd hbounded.clean ht)
    (wlp_cutting (hp s hs))

/-- More may be known of the end. -/
theorem mono (hX : ∀ a w, X a w → Y a w) (h : SafeAt c i k Y m v p q) : SafeAt c i k X m v p q :=
  fun s hs hlies => wlp_mono (fun a _ ht hbounded hXa => ht hbounded (hX a _ hXa)) (h s hs hlies)

/-- A run ends inside as many `#if` blocks as it begins in. -/
theorem steady
    (h : SafeAt c i k (fun a w => X a w ∧ w.directives = v.directives) m v p q) :
    SafeAt c i k X m v p q := by
  rintro s rfl hlies
  refine wlp_mono (fun a t ht hbounded hX => ?_) (wlp_and (wlp_steps p s) (h s rfl hlies))
  exact ht.2 hbounded ⟨hX, ht.1.2⟩

/-- Brackets that are open around the run are opened neither by it nor closed. -/
theorem shift (h : SafeAt c (n + i) (fun _ => 0) X 0 v p q) :
    SafeAt c i (fun _ => n) X n v p q := by
  refine fun s hs hlies => wlp_mono (fun a t ht hbounded hX => ?_) (h s hs hlies)
  obtain ⟨hspans, hrepeats⟩ := ht (by rwa [Nat.zero_add]) hX
  have hshift := hspans.shift n
  rw [Nat.zero_add] at hshift
  exact ⟨hshift, hrepeats⟩

/-- What is done on the front part may depend on how the run of `p` ends. -/
theorem late {Q : α → State → State → Prop} {r : Parser α} (hp : SafeAt c i k X m v p r)
    (hQ : ∀ s : State, s.view = v → s.Lies c → wlp (Cutting c) p (fun a t => Q a s t) s)
    (h : ∀ (s t : State) (a : α), s.view = v → s.Lies c → Q a s t → s.Reaches t →
      s.Spans c (k a) m t → t.Bounded c (k a + i) → X a t.view → q = r) :
    SafeAt c i k X m v p q := by
  refine fun s hs hlies => wlp_mono (fun a t ht hbounded hX => ?_)
    (wlp_and (wlp_steps p s) (wlp_and (hQ s hs hlies) (hp s hs hlies)))
  obtain ⟨hspans, hrepeats⟩ := ht.2.2 hbounded hX
  rw [h s t a hs hlies ht.2.1 ht.1.1 hspans hbounded hX]
  exact ⟨hspans, hrepeats⟩

/-- What is done on the front part may depend on the brackets that are closed before the cut. -/
theorem decided {r : Parser α} (hp : SafeAt c i k X m v p r)
    (h : Cuttable c v.lexemes → c.behind ≤ v.lexemes.length → v.Closes c (m + i) → q = r) :
    SafeAt c i k X m v p q := by
  refine hp.late (Q := fun _ _ _ => True)
    (fun s _ _ => wlp_of_forall (fun _ _ => trivial) s) ?_
  rintro s t a rfl hlies - hreaches hspans hbounded -
  have hback := hbounded.back hreaches hspans
  exact h hlies.lexemes hback.within hback.closes

/-! ### Sequencing -/

theorem pure {a : α} (h : m ≤ k a) : SafeAt c i k X m v (pure a) (Pure.pure a) := by
  refine fun s _ _ _ _ => ⟨.refl h, fun E a' t' hrun => ?_⟩
  cases hrun with
  | done => exact ⟨rfl, rfl⟩

/-- Nothing has to be shown of an end that cannot be. -/
theorem pure_of_not {a : α} (h : ¬ X a v) : SafeAt c i k X m v (Pure.pure a) q := by
  rintro s rfl _ _ hX
  exact absurd hX h

theorem repeats_bind {s t u : State} {a : α} {b : β} (h : Repeats c q s a t)
    (h' : Repeats c (g a) t b u) : Repeats c (q >>= g) s b u := by
  intro E b' u' hrun
  obtain ⟨a', t', hq, hg⟩ := Proceeds.exists_of_andThen hrun
  obtain ⟨rfl, rfl⟩ := h E a' t' hq
  exact h' E b' u' hg

/-- What has to be known of the end of the first step is told by what follows; that in turn need
    only be safe where the first step can end. -/
theorem bind_at {K : α → View → Prop} (hp : SafeAt c i k Y m v p q)
    (hK : ∀ s : State, s.view = v → s.Lies c → wlp (Cutting c) p (fun a t => K a t.view) s)
    (hf : ∀ a w, K a w → SafeAt c i l Z (k a) w (f a) (g a))
    (hY : ∀ a t, t.Lies c → K a t.view → wlp (Cutting c) (f a) (fun b u =>
      u.Bounded c (l b + i) → Z b u.view → t.Bounded c (k a + i) → Y a t.view) t) :
    SafeAt c i l Z m v (p >>= f) (q >>= g) := by
  refine fun s hs hlies => wlp_bind (wlp_mono (fun a t ht => ?_)
    (wlp_and (wlp_steps p s) (wlp_and (hK s hs hlies) (hp s hs hlies))))
  obtain ⟨⟨hreaches, hdirectives⟩, hKt, hsafe⟩ := ht
  have htlies := hlies.of_reaches hreaches hdirectives
  refine wlp_mono (fun b u hu hbounded hZ => ?_) (wlp_and (wlp_steps (f a) t)
    (wlp_and (hf a t.view hKt t rfl htlies) (hY a t htlies hKt)))
  obtain ⟨hsteps, hsafe', hYt⟩ := hu
  obtain ⟨hspans', hrepeats'⟩ := hsafe' hbounded hZ
  have hback := hbounded.back hsteps.1 hspans'
  obtain ⟨hspans, hrepeats⟩ := hsafe hback (hYt hbounded hZ hback)
  exact ⟨hspans.trans hspans', repeats_bind hrepeats hrepeats'⟩

/-- What has to be known of the end of the first step is told by what follows. -/
theorem bind_of (hp : SafeAt c i k Y m v p q)
    (hf : ∀ a w, SafeAt c i l Z (k a) w (f a) (g a))
    (hY : ∀ a t, t.Lies c → wlp (Cutting c) (f a) (fun b u =>
      u.Bounded c (l b + i) → Z b u.view → t.Bounded c (k a + i) → Y a t.view) t) :
    SafeAt c i l Z m v (p >>= f) (q >>= g) :=
  hp.bind_at (K := fun _ _ => True) (fun s _ _ => wlp_of_forall (fun _ _ => trivial) s)
    (fun a w _ => hf a w) fun a t hlies _ => hY a t hlies

theorem bind (hp : SafeAt c i k anyEnd m v p q)
    (hf : ∀ a w, SafeAt c i l Z (k a) w (f a) (g a)) : SafeAt c i l Z m v (p >>= f) (q >>= g) :=
  hp.bind_of hf fun _ t _ => wlp_of_forall (fun _ _ _ _ _ => trivial) t

/-- A result behind the first step. -/
theorem bind_pure {b : β} (hp : SafeAt c i (fun _ => l b) (fun _ w => Z b w) m v p q) :
    SafeAt c i l Z m v (p >>= fun _ => Pure.pure b) (q >>= fun _ => Pure.pure b) :=
  hp.bind_of (fun _ _ => .pure (Nat.le_refl _)) fun _ _ _ _ hZ _ => hZ

/-- The first step ends before the cut, because what follows consumes something. -/
theorem bind_fed (hp : SafeAt c i k (fun _ w => w.Before c) m v p q)
    (hf : ∀ a w, SafeAt c i l Z (k a) w (f a) (g a)) (hfed : ∀ a w, Eats 0 w (f a)) :
    SafeAt c i l Z m v (p >>= f) (q >>= g) := by
  refine hp.bind_of hf fun a t _ => ?_
  refine wlp_mono (fun b u hu hbounded _ _ _ => ?_) (wlp_cutting (hfed a t.view t rfl))
  have hlt := hu.resolve_right fun hreports => hreports hbounded.clean
  exact Nat.lt_of_le_of_lt hbounded.within hlt

/-- The first step ends in a place that what follows does not object to. -/
theorem bind_unless (hp : SafeAt c i k Y m v p q)
    (hf : ∀ a w, SafeAt c i l Z (k a) w (f a) (g a))
    (hY : ∀ a w, ¬ Y a w → Complains w (f a)) : SafeAt c i l Z m v (p >>= f) (q >>= g) := by
  refine hp.bind_of hf fun a t _ => ?_
  by_cases ht : Y a t.view
  · exact wlp_of_forall (fun _ _ _ _ _ => ht) t
  · exact wlp_mono (fun _ _ hu hbounded => absurd hbounded.clean hu)
      (wlp_cutting (hY a t.view ht t rfl))

/-- What follows is safe wherever the first step can end. -/
theorem bind_known {K : α → View → Prop} (hp : SafeAt c i k anyEnd m v p q)
    (hK : ∀ s : State, s.view = v → s.Lies c → wlp (Cutting c) p (fun a t => K a t.view) s)
    (hf : ∀ a w, K a w → SafeAt c i l Z (k a) w (f a) (g a)) :
    SafeAt c i l Z m v (p >>= f) (q >>= g) :=
  hp.bind_at hK hf fun _ t _ _ => wlp_of_forall (fun _ _ _ _ _ => trivial) t

/-! ### Looking -/

theorem view_bind {f g : View → Parser β} (h : SafeAt c i l Z m v (f v) (g (v.cut c))) :
    SafeAt c i l Z m v (view >>= f) (view >>= g) := by
  rintro s rfl hlies
  refine wlp_mono (fun b t ht hbounded hZ => ?_) (wlp_view_bind (h s rfl hlies))
  obtain ⟨hspans, hrepeats⟩ := ht hbounded hZ
  refine ⟨hspans, fun E a' t' hrun => ?_⟩
  cases hrun with
  | look rest => exact hrepeats E a' t' rest

/-- What is seen may matter as far as it is told by the brackets that are closed before the cut. -/
theorem view_decided {f : View → Parser β} (h : SafeAt c i l Z m v (f v) (f v))
    (hsame : Cuttable c v.lexemes → c.behind ≤ v.lexemes.length → v.Closes c (m + i) →
      f (v.cut c) = f v) : SafeAt c i l Z m v (view >>= f) (view >>= f) :=
  .view_bind (.decided h hsame)

/-- What is seen may matter as far as it is told by where the run ends. -/
theorem view_late {f : View → Parser β} (h : SafeAt c i l Z m v (f v) (f v))
    (hsame : ∀ (s t : State) (b : β), s.view = v → s.Lies c → s.Spans c (l b) m t →
      t.Bounded c (l b + i) → Z b t.view → f (v.cut c) = f v) :
    SafeAt c i l Z m v (view >>= f) (view >>= f) :=
  .view_bind (h.late (Q := fun _ _ _ => True) (fun s _ _ => wlp_of_forall (fun _ _ => trivial) s)
    fun s t b hs hlies _ _ hspans hbounded hZ => hsame s t b hs hlies hspans hbounded hZ)

theorem kind_bind' {f g : TokenKind → Parser β}
    (h : SafeAt c i l Z m v (f v.kind) (g (v.cut c).kind)) :
    SafeAt c i l Z m v (kind >>= f) (kind >>= g) :=
  view_bind (f := fun w => f w.kind) (g := fun w => g w.kind) h

/-- A choice by the next lexeme. At the cut, what comes next is consumed, or it is as if there were
    nothing. -/
theorem view_next {f : View → Parser β} (h : SafeAt c i l Z m v (f v) (f v))
    (hsame : c.behind < v.lexemes.length → f (v.cut c) = f v)
    (hend : Eats 0 v (f v) ∨ ∀ w : View, w.kind = .eof → f w = f v) :
    SafeAt c i l Z m v (view >>= f) (view >>= f) := by
  refine .view_bind ?_
  by_cases hin : c.behind < v.lexemes.length
  · rwa [hsame hin]
  · rcases hend with heats | heq
    · exact .eaten heats fun hlt => absurd hlt hin
    · rwa [heq _ (View.kind_cut_end (Nat.le_of_not_lt hin))]

/-- At the cut, what comes next is consumed, or it is as if there were nothing. -/
theorem kind_bind {f g : TokenKind → Parser β} (hend : Eats 0 v (f v.kind) ∨ g v.kind = g .eof)
    (h : SafeAt c i l Z m v (f v.kind) (g v.kind)) :
    SafeAt c i l Z m v (kind >>= f) (kind >>= g) := by
  refine .kind_bind' ?_
  by_cases hin : c.behind < v.lexemes.length
  · rwa [View.kind_cut hin]
  · rw [View.kind_cut_end (Nat.le_of_not_lt hin)]
    rcases hend with heats | heq
    · exact .eaten heats fun hlt => absurd hlt hin
    · rwa [← heq]

/-- Inside of brackets the same is seen. -/
theorem kind_inside {f g : TokenKind → Parser β}
    (h : SafeAt c (i + 1) l Z m v (f v.kind) (g v.kind)) :
    SafeAt c (i + 1) l Z m v (kind >>= f) (kind >>= g) :=
  .kind_bind' (.decided h fun _ hle hcloses => by rw [hcloses.kind_cut hle])

theorem sees_bind {x : TokenKind} {f g : Bool → Parser β} (hx : (x == .eof) = false)
    (hfed : v.kind = x → Eats 0 v (f true))
    (htrue : v.kind = x → SafeAt c i l Z m v (f true) (g true))
    (hfalse : v.kind ≠ x → SafeAt c i l Z m v (f false) (g false)) :
    SafeAt c i l Z m v (sees x >>= f) (sees x >>= g) := by
  refine .kind_bind' (f := fun y => f (y == x)) (g := fun y => g (y == x)) ?_
  by_cases hv : v.kind = x
  · rw [beq_iff_eq.mpr hv]
    refine .eaten (hfed hv) fun hin => ?_
    rw [View.kind_cut hin, beq_iff_eq.mpr hv]
    exact htrue hv
  · rw [beq_false_of_ne hv]
    by_cases hin : c.behind < v.lexemes.length
    · rw [View.kind_cut hin, beq_false_of_ne hv]
      exact hfalse hv
    · rw [View.kind_cut_end (Nat.le_of_not_lt hin), BEq.comm, hx]
      exact hfalse hv

theorem seesJoined_bind {x : TokenKind} {f g : Bool → Parser β} (hx : (x == .eof) = false)
    (hfed : v.kind = x → Eats 0 v (f true))
    (htrue : v.kind = x → SafeAt c i l Z m v (f true) (g true))
    (hfalse : SafeAt c i l Z m v (f false) (g false)) :
    SafeAt c i l Z m v (seesJoined x >>= f) (seesJoined x >>= g) := by
  refine .view_bind (f := fun w => f (w.seesJoined x)) (g := fun w => g (w.seesJoined x)) ?_
  have hkind : ∀ {w : View}, w.seesJoined x = true → w.kind = x := fun h =>
    eq_of_beq (Bool.and_eq_true_iff.mp h).1
  cases hv : v.seesJoined x with
  | true =>
    refine .eaten (hfed (hkind hv)) fun hin => ?_
    rw [View.seesJoined_cut hin, hv]
    exact htrue (hkind hv)
  | false =>
    have hcut : (v.cut c).seesJoined x = false := by
      by_cases hin : c.behind < v.lexemes.length
      · rw [View.seesJoined_cut hin, hv]
      · rw [View.seesJoined, View.kind_cut_end (Nat.le_of_not_lt hin), BEq.comm, hx]
        rfl
    rw [hcut]
    exact hfalse

/-- A choice that looks at the lexemes up to the `n`th one ahead, and consumes all of these if it is
    made in one way. It is not made so because of what is missing behind the cut. -/
theorem ite {C C' : Prop} [Decidable C] [Decidable C'] {p₂ q₂ : Parser α}
    (hsame : c.behind + n < v.lexemes.length → (C ↔ C')) (hnot : C' → C) (hp : C → Eats n v p)
    (htrue : C → SafeAt c i k X m v p q) (hfalse : ¬ C → SafeAt c i k X m v p₂ q₂) :
    SafeAt c i k X m v (if C then p else p₂) (if C' then q else q₂) := by
  by_cases hC : C
  · rw [if_pos hC]
    refine .eaten (hp hC) fun hin => ?_
    rw [if_pos ((hsame hin).mp hC)]
    exact htrue hC
  · rw [if_neg hC, if_neg fun hC' => hC (hnot hC')]
    exact hfalse hC

/-! ### Operations -/

theorem bump_of (hspans : ∀ l rest, v.lexemes = l :: rest → Lexeme.Closes [l] n m)
    (hend : v.lexemes = [] → m ≤ n) {X : Unit → View → Prop} :
    SafeAt c i (fun _ => n) X m v Parser.bump Parser.bump := by
  rintro s rfl hlies
  intro hbounded _
  refine ⟨?_, fun E a' t' hrun => ?_⟩
  · cases hls : s.view.lexemes with
    | nil =>
      have hconsume : s.consume = s := by rw [State.consume, hls]
      rw [hconsume]
      exact .refl (hend hls)
    | cons l rest =>
      have hl : l.kind ≠ .eof := hlies.lexemes.noEnd l (by rw [hls]; exact List.mem_cons_self)
      refine ⟨[l], ?_, fun _ => hspans l rest hls⟩
      rw [hls, State.consume, hls]
      simp [hl]
  · cases hrun with
    | consume rest =>
      cases rest with
      | done => exact ⟨rfl, State.consume_cut hlies hbounded.within⟩

theorem kind_of_cons {l : Lexeme} {rest : List Lexeme} (h : v.lexemes = l :: rest) :
    v.kind = l.kind := by
  rw [View.kind, View.kindAt, h]
  rfl

/-- What is no opening bracket opens nothing. -/
theorem bump {X : Unit → View → Prop} (ho : v.kind.isOpener = false) :
    SafeAt c i (fun _ => n) X n v Parser.bump Parser.bump := by
  refine .bump_of (fun l rest hls => ?_) fun _ => Nat.le_refl n
  rw [kind_of_cons hls] at ho
  cases hc : l.kind.isCloser with
  | true => exact .closer hc (.nil (Nat.le_refl n)) (Nat.le_succ n)
  | false => exact .plain ho hc (.nil (Nat.le_refl n))

theorem bump_kind {X : Unit → View → Prop} {x : TokenKind} (hv : v.kind = x)
    (ho : x.isOpener = false) : SafeAt c i (fun _ => n) X n v Parser.bump Parser.bump :=
  .bump (hv ▸ ho)

theorem bump_opener {X : Unit → View → Prop} (ho : v.kind.isOpener = true) :
    SafeAt c i (fun _ => n + 1) X n v Parser.bump Parser.bump := by
  refine .bump_of (fun l rest hls => ?_) fun _ => Nat.le_succ n
  rw [kind_of_cons hls] at ho
  exact .opener ho (.nil (Nat.le_refl _))

theorem bump_closer {X : Unit → View → Prop} (hc : v.kind.isCloser = true) :
    SafeAt c i (fun _ => n) X (n + 1) v Parser.bump Parser.bump := by
  refine .bump_of (fun l rest hls => ?_) fun hnil => ?_
  · rw [kind_of_cons hls] at hc
    exact .closer hc (.nil (Nat.le_refl n)) (Nat.le_refl _)
  · rw [View.kind, View.kindAt, hnil] at hc
    cases hc

/-- Behind a lexeme that is consumed, what was seen behind it comes next. -/
theorem bump_then {f g : Unit → Parser β} (hv : v.atEnd = false)
    (hbump : SafeAt c i (fun _ => n) anyEnd m v Parser.bump Parser.bump)
    (h : SafeAt c i l Z n v.tail (f ()) (g ())) :
    SafeAt c i l Z m v (Parser.bump >>= f) (Parser.bump >>= g) := by
  rintro s rfl hlies
  have hlies' : s.consume.Lies c := by
    have hsteps := wlp_steps (c := c) Parser.bump s
    exact hlies.of_reaches hsteps.1 hsteps.2
  refine wlp_bind (wlp_bump (wlp_mono (fun b t ht hbounded hZ => ?_)
    (wlp_and (wlp_steps (f ()) s.consume) (h s.consume (State.view_consume hv) hlies'))))
  obtain ⟨hspans', hrepeats'⟩ := ht.2 hbounded hZ
  obtain ⟨hspans, hrepeats⟩ := hbump s rfl hlies (hbounded.back ht.1.1 hspans') trivial
  exact ⟨hspans.trans hspans', repeats_bind hrepeats hrepeats'⟩

theorem word_then {f g : Unit → Parser β} (hv : v.AtWord)
    (h : SafeAt c i l Z n v.tail (f ()) (g ())) :
    SafeAt c i l Z n v (Parser.bump >>= f) (Parser.bump >>= g) :=
  .bump_then hv.atEnd (.bump hv.plain) h

/-- A rule that is followed under its condition. -/
theorem follow {r : Rule} {X : Bool → View → Prop} (hv : SafeBegin r v)
    (hX : ∀ b w, w.Closes c i → X b w → SafeEnd c r w) :
    SafeAt c i (fun _ => 0) X 0 v (Parser.follow r) (Parser.follow r) := by
  rintro s rfl hlies b t hcutting hbounded hXt
  rw [Nat.zero_add] at hbounded
  obtain ⟨hspans, hrepeats⟩ :=
    hcutting.safe hv hlies (hbounded.mono (Nat.zero_le _)) (hX b _ hbounded.closes hXt)
  refine ⟨hspans, fun E a' t' hrun => ?_⟩
  cases hrun with
  | call _ inside rest =>
    cases rest with
    | done => exact hrepeats _ _ _ inside

theorem follow' {r : Rule} {X : Unit → View → Prop} (hv : SafeBegin r v)
    (hX : ∀ w, w.Closes c i → X () w → SafeEnd c r w) :
    SafeAt c i (fun _ => 0) X 0 v (Parser.follow' r) (Parser.follow' r) := by
  rintro s rfl hlies b t hcutting hbounded hXt
  have hbounded' : t.Bounded c (0 + i) := hbounded
  rw [Nat.zero_add] at hbounded'
  obtain ⟨hspans, hrepeats⟩ :=
    hcutting.safe hv hlies (hbounded.mono (Nat.zero_le _)) (hX _ hbounded'.closes hXt)
  refine ⟨hspans, fun E a' t' hrun => ?_⟩
  cases hrun with
  | call _ inside rest =>
    obtain ⟨rfl, rfl⟩ := hrepeats _ _ _ inside
    cases rest with
    | done => exact ⟨rfl, rfl⟩

/-! ### Nodes -/

/-- A node is made of the same on the front part. -/
theorem group {adopt : Bool} {h : α → β × Option NodeKind}
    (hp : SafeAt c i (fun a => l (h a).1) (fun a w => Z (h a).1 w) m v p q) :
    SafeAt c i l Z m v (.group adopt (p.andThen fun a => .done (h a)) .done)
      (.group adopt (q.andThen fun a => .done (h a)) .done) := by
  intro s hs hlies
  refine wlp_andThen (wlp_mono (fun a t ht hbounded hZ => ?_)
    (hp (s.start adopt) hs ⟨hlies.lexemes, hlies.outer⟩))
  obtain ⟨hspans, hrepeats⟩ := ht ⟨hbounded.clean, hbounded.within, hbounded.closes⟩ hZ
  refine ⟨hspans, fun E b' u' hrun => ?_⟩
  cases hrun with
  | group inside rest =>
    cases rest with
    | done =>
      obtain ⟨a', t', hq, hdone⟩ := Proceeds.exists_of_andThen inside
      obtain ⟨rfl, rfl⟩ := hrepeats _ _ _ hq
      cases hdone with
      | done => exact ⟨rfl, rfl⟩

theorem node {kind : NodeKind} (hp : SafeAt c i k X m v p q) :
    SafeAt c i k X m v (Parser.node kind p) (Parser.node kind q) := hp.group

theorem wrap {kind : NodeKind} (hp : SafeAt c i k X m v p q) :
    SafeAt c i k X m v (Parser.wrap kind p) (Parser.wrap kind q) := hp.group

theorem node? {X : Bool → View → Prop} {k : Bool → Nat} {p q : Parser (Option NodeKind)}
    (hp : SafeAt c i (fun a => k a.isSome) (fun a w => X a.isSome w) m v p q) :
    SafeAt c i k X m v (Parser.node? p) (Parser.node? q) := hp.group

/-- What is done inside one more `#if` block. -/
theorem inDirective
    (hp : c.outer ≤ v.directives → SafeAt c i k
      (fun a w => X a { w with directives := v.directives }) m
      { v with directives := v.directives + 1 } p q) :
    SafeAt c i k X m v (Parser.inDirective p) (Parser.inDirective q) := by
  rintro s rfl hlies
  have hinside : (s.withDirectives (s.view.directives + 1)).Lies c :=
    ⟨hlies.lexemes, Nat.le_succ_of_le hlies.outer⟩
  rw [Parser.inDirective, wlp]
  refine wlp_mono (fun a t ht hbounded hX => ?_) (hp hlies.outer _ rfl hinside)
  obtain ⟨hspans, hrepeats⟩ := ht ⟨hbounded.clean, hbounded.within, hbounded.closes⟩ hX
  refine ⟨hspans, fun E b' u' hrun => ?_⟩
  cases hrun with
  | directive inside rest =>
    rw [State.withDirectives_cut hlies.outer] at inside
    obtain ⟨rfl, rfl⟩ := hrepeats _ _ _ inside
    cases rest with
    | done => exact ⟨rfl, rfl⟩

end SafeAt

/-! ### Loops -/

/-- What is open behind a round: what the next one begins with, or what is handed on. -/
def roundEnd {τ : Type} (N S : σ → τ) : Step σ → τ
  | .again y => N y
  | .stop y => S y

/-- Two rounds decide the same, on states that correspond. -/
inductive Step.Same (R : σ → σ → Prop) : Step σ → Step σ → Prop where
  | again {y z : σ} (h : R y z) : Same R (.again y) (.again z)
  | stop {y z : σ} (h : R y z) : Same R (.stop y) (.stop z)

namespace SafeAt

/-- A loop is safe if its rounds are, with states that correspond by `R`. What has to be known
    between two rounds, `I`, is told by what comes behind them. -/
theorem loop_of {round round' : σ → Parser (Step σ)} {next next' : σ → Parser β} {init : σ}
    {N S : σ → Nat} {I : View → Prop} {J : σ → View → Prop} {R : View → σ → σ → Prop}
    (hrefl : ∀ w y, R w y y)
    (hround : ∀ (y z : σ) (s : State), R s.view y z → s.Lies c →
      wlp (Cutting c) (round y) (fun step t =>
        t.Bounded c (roundEnd N S step + i) → roundEnd (fun _ => I) J step t.view →
          s.Spans c (roundEnd N S step) (N y) t ∧ I s.view ∧
            ∀ E step' t', Proceeds body E (round' z) (s.cut c) step' t' →
              Step.Same (R t.view) step step' ∧ t' = t.cut c) s)
    (hnext : ∀ y z w, R w y z → SafeAt c i l Z (S y) w (next y) (next' z))
    (hlast : ∀ (y : σ) (t : State), t.Lies c → wlp (Cutting c) (next y)
      (fun b u => u.Bounded c (l b + i) → Z b u.view → J y t.view) t) :
    SafeAt c i l Z (N init) v (.loop round init next) (.loop round' init next') := by
  rintro s rfl hlies
  -- what is left of the loop on the front part begins in a state that corresponds
  refine ⟨fun y t => (s.Reaches t ∧ t.Lies c) ∧ (t.Bounded c (N y + i) → I t.view →
    s.Spans c (N y) (N init) t ∧ ∀ E b u, Proceeds body E (.loop round' init next') (s.cut c) b u →
      ∃ z, R t.view y z ∧ Proceeds body E (.loop round' z next') (t.cut c) b u),
    ⟨⟨.refl s, hlies⟩, fun _ _ => ⟨.refl (Nat.le_refl _), fun _ _ _ h => ⟨init, hrefl _ _, h⟩⟩⟩,
    fun y t ht => ?_⟩
  obtain ⟨⟨hst, htlies⟩, hbefore⟩ := ht
  have hrounds := wlp_forall fun z : {z // R t.view y z} => hround y z t z.2 htlies
  refine wlp_mono (fun step u hu => ?_) (wlp_and (wlp_steps (round y) t) hrounds)
  obtain ⟨⟨htu, hdirectives⟩, hsafe⟩ := hu
  have hulies := htlies.of_reaches htu hdirectives
  have hboth : u.Bounded c (roundEnd N S step + i) → roundEnd (fun _ => I) J step u.view →
      s.Spans c (roundEnd N S step) (N init) u ∧
        ∀ E b w, Proceeds body E (.loop round' init next') (s.cut c) b w →
          ∃ z, Proceeds body E (.loop round' z next') (t.cut c) b w ∧
            ∀ E step' t', Proceeds body E (round' z) (t.cut c) step' t' →
              Step.Same (R u.view) step step' ∧ t' = u.cut c := by
    intro hbounded hI
    obtain ⟨hspans, hIt, -⟩ := hsafe ⟨y, hrefl _ _⟩ hbounded hI
    obtain ⟨hspans', hunroll⟩ := hbefore (hbounded.back htu hspans) hIt
    refine ⟨hspans'.trans hspans, fun E b w hrun => ?_⟩
    obtain ⟨z, hR, hrest⟩ := hunroll E b w hrun
    exact ⟨z, hrest, (hsafe ⟨z, hR⟩ hbounded hI).2.2⟩
  cases step with
  | again x =>
    refine ⟨⟨hst.trans htu, hulies⟩, fun hbounded hI => ?_⟩
    obtain ⟨hspans, hunroll⟩ := hboth hbounded hI
    refine ⟨hspans, fun E b w hrun => ?_⟩
    obtain ⟨z, hrest, hrepeats⟩ := hunroll E b w hrun
    cases hrest with
    | stop inside _ => cases (hrepeats _ _ _ inside).1
    | again inside _ rest =>
      obtain ⟨hsame, rfl⟩ := hrepeats _ _ _ inside
      cases hsame with
      | again hR => exact ⟨_, hR, rest⟩
  | stop x =>
    have hnexts := wlp_forall fun z : {z // R u.view x z} => hnext x z u.view z.2 u rfl hulies
    refine wlp_mono (fun b w hw hbounded hZ => ?_)
      (wlp_and (wlp_steps (next x) u) (wlp_and hnexts (hlast x u hulies)))
    obtain ⟨hsteps, hsafe', hJ⟩ := hw
    obtain ⟨hspans', -⟩ := hsafe' ⟨x, hrefl _ _⟩ hbounded hZ
    obtain ⟨hspans, hunroll⟩ := hboth (hbounded.back hsteps.1 hspans') (hJ hbounded hZ)
    refine ⟨hspans.trans hspans', fun E b' w' hrun => ?_⟩
    obtain ⟨z, hrest, hrepeats⟩ := hunroll E b' w' hrun
    cases hrest with
    | stop inside rest =>
      obtain ⟨hsame, rfl⟩ := hrepeats _ _ _ inside
      cases hsame with
      | stop hR => exact (hsafe' ⟨_, hR⟩ hbounded hZ).2 _ _ _ rest
    | again inside _ _ => cases (hrepeats _ _ _ inside).1

/-- A loop is safe if its rounds are. -/
theorem loop {round round' : σ → Parser (Step σ)} {next next' : σ → Parser β} {init : σ}
    {N S : σ → Nat} {I : View → Prop} {J : σ → View → Prop}
    (hround : ∀ y w, SafeAt c i (roundEnd N S) (roundEnd (fun _ => I) J) (N y) w (round y)
      (round' y))
    (hback : ∀ (y : σ) (s : State), s.Lies c → wlp (Cutting c) (round y) (fun step t =>
      t.Bounded c (roundEnd N S step + i) → s.Spans c (roundEnd N S step) (N y) t →
        roundEnd (fun _ => I) J step t.view → I s.view) s)
    (hnext : ∀ y w, SafeAt c i l Z (S y) w (next y) (next' y))
    (hlast : ∀ (y : σ) (t : State), t.Lies c → wlp (Cutting c) (next y)
      (fun b u => u.Bounded c (l b + i) → Z b u.view → J y t.view) t) :
    SafeAt c i l Z (N init) v (.loop round init next) (.loop round' init next') := by
  refine .loop_of (R := fun _ y z => z = y) (I := I) (fun _ _ => rfl) (fun y z s hz hlies => ?_)
    (fun y z w hz => by rw [hz]; exact hnext y w) hlast
  subst hz
  refine wlp_mono (fun step t ht hbounded hI => ?_)
    (wlp_and (hround z s.view s rfl hlies) (hback z s hlies))
  obtain ⟨hspans, hrepeats⟩ := ht.1 hbounded hI
  refine ⟨hspans, ht.2 hbounded hspans hI, fun E step' t' hrun => ?_⟩
  obtain ⟨rfl, rfl⟩ := hrepeats E step' t' hrun
  refine ⟨?_, rfl⟩
  cases step' with
  | again x => exact .again rfl
  | stop x => exact .stop rfl

/-- A repetition is safe if its rounds are. -/
theorem repeating_of {body body' : Parser Bool} {I J : View → Prop}
    (h : ∀ w, SafeAt c i (fun _ => 0) (fun b u => if b then I u else J u) 0 w body body')
    (hback : ∀ s : State, s.Lies c → wlp (Cutting c) body (fun b t =>
      t.Bounded c i → s.Spans c 0 0 t → (if b then I t.view else J t.view) → I s.view) s) :
    SafeAt c i (fun _ => 0) (fun _ => J) 0 v (Parser.repeating body) (Parser.repeating body') := by
  have hzero : ∀ step : Step Unit, roundEnd (fun _ => 0) (fun _ => 0) step = 0 := by
    intro step
    cases step <;> rfl
  refine .loop (N := fun _ => 0) (S := fun _ => 0) (I := I) (J := fun _ => J) (fun _ w => ?_)
    (fun _ s hlies => ?_) (fun _ w => .pure (Nat.le_refl 0)) fun _ t _ _ hJ => hJ
  · refine SafeAt.bind_of (h w) (fun b w => .pure (Nat.zero_le _)) fun b t _ => ?_
    cases b with
    | true => exact fun _ hI _ => hI
    | false => exact fun _ hJ _ => hJ
  · refine wlp_andThen (wlp_mono (fun b t ht => ?_) (hback s hlies))
    rw [wlp]
    intro hbounded hspans hI
    rw [hzero] at hbounded hspans
    rw [Nat.zero_add] at hbounded
    cases b with
    | true => exact ht hbounded hspans hI
    | false => exact ht hbounded hspans hI

theorem repeating {body body' : Parser Bool}
    (h : ∀ w, SafeAt c i (fun _ => 0) anyEnd 0 w body body') {X : Unit → View → Prop} :
    SafeAt c i (fun _ => 0) X 0 v (Parser.repeating body) (Parser.repeating body') :=
  .mono (fun _ _ _ => trivial) (.repeating_of (I := fun _ => True) (J := fun _ => True)
    (fun w => .mono (fun _ _ _ => trivial) (h w))
    fun s _ => wlp_of_forall (fun _ _ _ _ _ => trivial) s)

/-! ### Combinators -/

theorem eat_of {x : TokenKind} {k : Bool → Nat} {X : Bool → View → Prop} (hx : (x == .eof) = false)
    (hnot : m ≤ k false)
    (h : v.kind = x → SafeAt c i (fun _ => k true) anyEnd m v Parser.bump Parser.bump) :
    SafeAt c i k X m v (eat x) (eat x) := by
  refine .sees_bind hx (fun hv => ?_) (fun hv => ?_) fun _ => ?_
  · rw [if_pos rfl]
    exact (Feeds.first (x := false) (.bump_kind hv hx)).eats
  · rw [if_pos rfl]
    exact .bind (h hv) fun _ _ => .pure (Nat.le_refl _)
  · rw [if_neg Bool.false_ne_true]
    exact .pure hnot

theorem eat {x : TokenKind} {X : Bool → View → Prop} (hx : (x == .eof) = false)
    (ho : x.isOpener = false) : SafeAt c i (fun _ => n) X n v (Parser.eat x) (Parser.eat x) :=
  .eat_of hx (Nat.le_refl n) fun hv => .bump_kind hv ho

/-- Where nothing is eaten that has to be, a problem is reported. -/
theorem expect_of {x : TokenKind} {problem : Problem} {k : Bool → Nat} {X : Bool → View → Prop}
    (hx : (x == .eof) = false)
    (h : v.kind = x → SafeAt c i (fun _ => k true) anyEnd m v Parser.bump Parser.bump) :
    SafeAt c i k X m v (expect x problem) (expect x problem) := by
  refine .bind (.eat_of (k := fun b => if b then k true else m) hx (Nat.le_refl m) h)
    fun b w => ?_
  cases b with
  | true => exact .pure (Nat.le_refl _)
  | false => exact .complains (.first .report)

theorem expect {x : TokenKind} {problem : Problem} {X : Bool → View → Prop}
    (hx : (x == .eof) = false) (ho : x.isOpener = false) :
    SafeAt c i (fun _ => n) X n v (Parser.expect x problem) (Parser.expect x problem) :=
  .expect_of hx fun hv => .bump_kind hv ho

theorem require {x : TokenKind} {problem : Problem} {X : Unit → View → Prop}
    (hx : (x == .eof) = false) (ho : x.isOpener = false) :
    SafeAt c i (fun _ => n) X n v (Parser.require x problem) (Parser.require x problem) :=
  .bind (.expect hx ho) fun _ _ => .pure (Nat.le_refl n)

theorem require_closer {x : TokenKind} {problem : Problem} {X : Unit → View → Prop}
    (hx : x.isCloser = true) : SafeAt c i (fun _ => n) X (n + 1) v
      (Parser.require x problem) (Parser.require x problem) := by
  refine .bind (k := fun _ => n) (.expect_of ?_ fun hv => ?_) fun _ _ => .pure (Nat.le_refl n)
  · refine beq_false_of_ne fun h => ?_
    rw [h] at hx
    cases hx
  · exact .bump_closer (hv ▸ hx)

end SafeAt

/-- Where the lexeme that is required does not come, that is reported. -/
theorem Complains.require {w : View} {x : TokenKind} {problem : Problem} (h : w.kind ≠ x) :
    Complains w (require x problem) := by
  rintro s rfl
  refine wlp_require_not ?_ ?_
  · exact h
  · exact List.cons_ne_nil _ _

theorem wlp_eat_not {x : TokenKind} {Q : Bool → State → Prop} {s : State} (h : s.view.kind ≠ x)
    (hs : Q false s) : wlp G (eat x) Q s := by
  show wlp G (if s.view.kind == x then (do bump; pure true) else pure false) Q s
  rw [beq_false_of_ne h, if_neg Bool.false_ne_true]
  exact hs

theorem Complains.expect {w : View} {x : TokenKind} {problem : Problem} (h : w.kind ≠ x) :
    Complains w (expect x problem) := by
  rintro s rfl
  exact wlp_bind (wlp_eat_not h (List.cons_ne_nil _ _))

namespace SafeAt

/-- What stands between brackets, up to the closing one. -/
theorem closed_of {x : TokenKind} {problem : Problem} {p q : Parser Unit}
    {X : Unit → View → Prop} (hx : x.isCloser = true)
    (h : SafeAt c (i + 1) (fun _ => 0) (fun _ u => u.kind = x) 0 v p q) :
    SafeAt c i (fun _ => 0) X 1 v (p >>= fun _ => Parser.require x problem)
      (q >>= fun _ => Parser.require x problem) := by
  refine .bind_unless (.shift ?_) (fun _ _ => .require_closer hx) fun _ u hu => .require hu
  rwa [Nat.add_comm]

/-- Brackets with something between them. -/
theorem bracketed_of {x : TokenKind} {problem : Problem} {p q : Parser Unit}
    {X : Unit → View → Prop}
    (ho : v.kind.isOpener = true) (hx : x.isCloser = true)
    (h : ∀ w, SafeAt c (i + 1) (fun _ => 0) (fun _ u => u.kind = x) 0 w p q) :
    SafeAt c i (fun _ => 0) X 0 v
      (Parser.bump >>= fun _ => p >>= fun _ => Parser.require x problem)
      (Parser.bump >>= fun _ => q >>= fun _ => Parser.require x problem) :=
  .bind (.bump_opener ho) fun _ w => .closed_of hx (h w)

theorem bracketed {x : TokenKind} {problem : Problem} {p q : Parser Unit}
    {X : Unit → View → Prop}
    (ho : v.kind.isOpener = true) (hx : x.isCloser = true)
    (h : ∀ w, SafeAt c (i + 1) (fun _ => 0) anyEnd 0 w p q) :
    SafeAt c i (fun _ => 0) X 0 v
      (Parser.bump >>= fun _ => p >>= fun _ => Parser.require x problem)
      (Parser.bump >>= fun _ => q >>= fun _ => Parser.require x problem) :=
  .bracketed_of ho hx fun w => .mono (fun _ _ _ => trivial) (h w)

/-- An element and the comma behind it. What has to be known of the end of the element is that a
    comma comes, or what is known of the end of the list. -/
theorem element_of {element element' : Parser Bool} {J : View → Prop}
    (h : SafeAt c i (fun _ => 0) (fun _ u => u.kind = .comma ∨ J u) 0 v element element') :
    SafeAt c i (fun _ => 0) (fun b u => if b then True else J u) 0 v
      (element >>= fun b => if b then Parser.eat .comma else Pure.pure false)
      (element' >>= fun b => if b then Parser.eat .comma else Pure.pure false) := by
  refine .bind_of h (fun b w => ?_) fun b t _ => ?_
  · cases b with
    | true => exact .eat rfl rfl
    | false => exact .pure (Nat.le_refl 0)
  · cases b with
    | false => exact fun _ hJ _ => .inr hJ
    | true =>
      rw [if_pos rfl]
      by_cases hcomma : t.view.kind = .comma
      · exact wlp_of_forall (fun _ _ _ _ _ => .inl hcomma) t
      · exact wlp_eat_not hcomma fun _ hJ _ => .inr hJ

/-- Elements with commas between them. -/
theorem separated_of {element element' : Parser Bool} {J : View → Prop}
    (h : ∀ w, SafeAt c i (fun _ => 0) (fun _ u => u.kind = .comma ∨ J u) 0 w element element') :
    SafeAt c i (fun _ => 0) (fun _ => J) 0 v (Parser.separated element)
      (Parser.separated element') :=
  .repeating_of (I := fun _ => True) (fun w => .element_of (h w))
    fun s _ => wlp_of_forall (fun _ _ _ _ _ => trivial) s

theorem separated {element element' : Parser Bool} {X : Unit → View → Prop}
    (h : ∀ w, SafeAt c i (fun _ => 0) anyEnd 0 w element element') :
    SafeAt c i (fun _ => 0) X 0 v (Parser.separated element) (Parser.separated element') :=
  .mono (fun _ _ _ => trivial) (.separated_of (J := fun _ => True)
    fun w => .mono (fun _ _ _ => trivial) (h w))

/-- A list of items, up to the closing brace. -/
theorem items {scope : Scope} {problem : Problem} {X : Unit → View → Prop} :
    SafeAt c i (fun _ => 0) X 1 v
      (Parser.follow' (.items scope) >>= fun _ => Parser.require .rBrace problem)
      (Parser.follow' (.items scope) >>= fun _ => Parser.require .rBrace problem) := by
  refine .closed_of rfl (.follow' trivial fun w hcloses hk => ⟨hcloses.walled, fun hends => ?_⟩)
  rw [hk] at hends
  rcases hends with h | h | h <;> cases h

/-- A list of items in braces. -/
theorem braced {scope : Scope} {problem : Problem} {X : Unit → View → Prop}
    (hv : v.kind = .lBrace) : SafeAt c i (fun _ => 0) X 0 v
      (do Parser.bump; Parser.follow' (.items scope); Parser.require .rBrace problem)
      (do Parser.bump; Parser.follow' (.items scope); Parser.require .rBrace problem) :=
  .bind (.bump_opener (by rw [hv]; rfl)) fun _ _ => .items

/-- Elements with commas between them up to a closer, where either the same is seen on the front
    part, or elements consume something. -/
theorem separatedUntil_of {x : TokenKind} {element element' : Parser Bool} {J : View → Prop}
    (hseen : ∀ w : View, w.kind ≠ x → w.atEnd = false → Eats 0 w element ∨ 0 < i)
    (h : ∀ w, SafeAt c i (fun _ => 0) (fun _ u => u.kind = .comma ∨ J u) 0 w element element') :
    SafeAt c i (fun _ => 0) (fun _ => J) 0 v (Parser.separatedUntil x element)
      (Parser.separatedUntil x element') := by
  refine .repeating_of (I := fun _ => True) (fun w => ?_)
    fun s _ => wlp_of_forall (fun _ _ _ _ _ => trivial) s
  have hround := SafeAt.element_of (h w)
  refine .view_bind ?_
  by_cases hstop : w.kind = x ∨ w.atEnd = true
  · -- nothing is missed on the front part
    have hcut : (w.cut c).kind = x ∨ (w.cut c).atEnd = true := by
      by_cases hin : c.behind < w.lexemes.length
      · rwa [View.kind_cut hin, View.atEnd_cut hin]
      · exact .inr (beq_iff_eq.mpr (View.kind_cut_end (Nat.le_of_not_lt hin)))
    rw [if_pos (by simpa using hstop), if_pos (by simpa using hcut)]
    exact .pure (Nat.le_refl 0)
  · have hnot := not_or.mp hstop
    rw [if_neg (by simpa using hstop)]
    have hsame (hkind : (w.cut c).kind = w.kind) :
        ¬((w.cut c).kind == x || (w.cut c).atEnd) = true := by
      rw [View.atEnd, hkind]
      simpa [View.atEnd] using hnot
    rcases hseen w hnot.1 (Bool.eq_false_iff.mpr hnot.2) with heats | hi
    · refine .eaten heats.first fun hin => ?_
      rw [if_neg (hsame (View.kind_cut hin))]
      exact hround
    · obtain ⟨i, rfl⟩ := Nat.exists_eq_succ_of_ne_zero (Nat.ne_of_gt hi)
      refine .decided hround fun _ hle hcloses => ?_
      rw [if_neg (hsame (View.Closes.kind_cut (n := i) (by simpa using hcloses) hle))]

theorem separatedUntil {x : TokenKind} {element element' : Parser Bool} {X : Unit → View → Prop}
    (hseen : ∀ w : View, w.kind ≠ x → w.atEnd = false → Eats 0 w element ∨ 0 < i)
    (h : ∀ w, SafeAt c i (fun _ => 0) anyEnd 0 w element element') :
    SafeAt c i (fun _ => 0) X 0 v (Parser.separatedUntil x element)
      (Parser.separatedUntil x element') :=
  .mono (fun _ _ _ => trivial) (.separatedUntil_of (J := fun _ => True) hseen
    fun w => .mono (fun _ _ _ => trivial) (h w))

/-- A choice that looks at the lexemes up to the `n`th one ahead. It is made only if there is one,
    and then all of them are consumed. -/
theorem ahead {C : View → Bool} {p₂ q₂ : Parser α} (n : Nat)
    (hsame : c.behind + n < v.lexemes.length → C (v.cut c) = C v)
    (hlast : C (v.cut c) = true → (v.cut c).kindAt n ≠ .eof) (hp : C v = true → Eats n v p)
    (htrue : C v = true → SafeAt c i k X m v p q)
    (hfalse : C v = false → SafeAt c i k X m v p₂ q₂) :
    SafeAt c i k X m v (if C v then p else p₂) (if C (v.cut c) then q else q₂) := by
  refine .ite (fun hin => by rw [hsame hin]) (fun hC => ?_) hp htrue
    fun hC => hfalse (Bool.eq_false_iff.mpr hC)
  rw [← hsame (v.lt_of_kindAt_cut (hlast hC))]
  exact hC

/-- A choice that looks at the next lexeme, and consumes it if it is made. -/
theorem word {C : View → Bool} {f g : Unit → Parser α}
    (hsame : c.behind < v.lexemes.length → C (v.cut c) = C v)
    (hword : ∀ w, C w = true → w.AtWord) (h : ∀ w, SafeAt c i k X n w (f ()) (g ()))
    (hfalse : C v = false → SafeAt c i k X n v p q) :
    SafeAt c i k X n v (if C v then Parser.bump >>= f else p)
      (if C (v.cut c) then Parser.bump >>= g else q) := by
  refine .ahead 0 hsame (fun hC => (hword _ hC).ne) (fun hC => ?_) (fun hC => ?_) hfalse
  · exact (Eats.bump (hword v hC).atEnd).first
  · exact .bind (.bump (hword v hC).plain) fun _ => h

/-- A choice that looks at the next two lexemes, and consumes both of them if it is made. -/
theorem pair {C : View → Bool} {f g : Unit → Parser α}
    (hsame : c.behind + 1 < v.lexemes.length → C (v.cut c) = C v)
    (hwords : ∀ w, C w = true → w.AtWord ∧ w.tail.AtWord)
    (hfed : ∀ w : View, w.AtWord → Eats 0 w (f ()))
    (h : ∀ w : View, w.AtWord → SafeAt c i k X n w (f ()) (g ()))
    (hfalse : C v = false → SafeAt c i k X n v p q) :
    SafeAt c i k X n v (if C v then Parser.bump >>= f else p)
      (if C (v.cut c) then Parser.bump >>= g else q) := by
  refine .ahead 1 hsame (fun h => ?_) (fun h => ?_) (fun hC => ?_) hfalse
  · exact (View.kind_tail _) ▸ (hwords _ h).2.ne
  · exact .bump_bind (hwords v h).1.atEnd (hfed _ (hwords v h).2)
  · exact .word_then (hwords v hC).1 (h _ (hwords v hC).2)

end SafeAt

/-! ### Programs that are safe everywhere -/

namespace Safe

/-- What is safe everywhere is so between brackets, and whatever is known of its end. -/
theorem safeAt (h : Safe c p) : SafeAt c i (fun _ => n) X n v p p :=
  .shift (.mono (fun _ _ _ => trivial) (h (n + i) v))

theorem pure {a : α} : Safe c (Pure.pure a : Parser α) := fun _ _ => .pure (Nat.le_refl 0)

theorem bind (hp : Safe c p) (hf : ∀ a, Safe c (f a)) : Safe c (p >>= f) :=
  fun i v => .bind (hp i v) fun a w => hf a i w

theorem report {problem : Problem} : Safe c (report problem) := fun _ _ => .complains .report

theorem eat {x : TokenKind} (hx : (x == .eof) = false) (ho : x.isOpener = false) :
    Safe c (eat x) := fun _ _ => .eat hx ho

theorem expect {x : TokenKind} {problem : Problem} (hx : (x == .eof) = false)
    (ho : x.isOpener = false) : Safe c (expect x problem) := fun _ _ => .expect hx ho

theorem require {x : TokenKind} {problem : Problem} (hx : (x == .eof) = false)
    (ho : x.isOpener = false) : Safe c (require x problem) := fun _ _ => .require hx ho

theorem follow {r : Rule} (hr : isPlainRule r = true) : Safe c (follow r) :=
  fun _ _ => .follow (safeBegin_of_isPlainRule hr) fun _ _ _ _ => safeEnd_of_isPlainRule hr

theorem follow' {r : Rule} (hr : isPlainRule r = true) : Safe c (follow' r) :=
  fun _ _ => .follow' (safeBegin_of_isPlainRule hr) fun _ _ _ => safeEnd_of_isPlainRule hr

theorem node {kind : NodeKind} (hp : Safe c p) : Safe c (node kind p) := fun i v => .node (hp i v)

theorem wrap {kind : NodeKind} (hp : Safe c p) : Safe c (wrap kind p) := fun i v => .wrap (hp i v)

theorem repeating {body : Parser Bool} (h : Safe c body) : Safe c (repeating body) :=
  fun i _ => .repeating (h i)

theorem separated {element : Parser Bool} (h : Safe c element) : Safe c (separated element) :=
  fun i _ => .separated (h i)

/-- A choice that does not depend on what comes next. -/
theorem ite {C : Prop} [Decidable C] {p₂ : Parser α} (hp : C → Safe c p) (hp₂ : ¬ C → Safe c p₂) :
    Safe c (if C then p else p₂) := by
  split
  · next h => exact hp h
  · next h => exact hp₂ h

/-- A program that is run if a `k` comes next, and then consumes something. -/
theorem ifSees {x : TokenKind} {p : Parser Unit} (hx : (x == .eof) = false)
    (hfed : ∀ v : View, v.kind = x → Feeds false v p)
    (h : ∀ i v, v.kind = x → SafeAt c i (fun _ => 0) anyEnd 0 v p p) :
    Safe c (do if ← sees x then p) := by
  refine fun i v => .sees_bind hx (fun hv => ?_) (fun hv => ?_) fun _ => ?_
  · rw [if_pos rfl]
    exact (hfed v hv).eats
  · rw [if_pos rfl]
    exact h i v hv
  · rw [if_neg Bool.false_ne_true]
    exact .pure (Nat.le_refl 0)

end Safe

/-- A node of a lexeme that is known and a rule behind it. -/
theorem SafeAt.introduced {kind : NodeKind} {r : Rule} {X : Unit → View → Prop} {x : TokenKind}
    (hv : v.kind = x) (ho : x.isOpener = false) (hr : isPlainRule r = true) :
    SafeAt c i (fun _ => 0) X 0 v (Parser.node kind do Parser.bump; Parser.follow' r)
      (Parser.node kind do Parser.bump; Parser.follow' r) :=
  .node (.bind (.bump_kind hv ho) fun _ _ => (Safe.follow' hr).safeAt)

/-! ### Balanced groups -/

/-- Behind a lexeme as many brackets are open as are counted. -/
theorem SafeAt.bump_depth {depth : Nat} {X : Unit → View → Prop} :
    SafeAt c i (fun _ => depthAfter depth v.kind) X depth v Parser.bump Parser.bump := by
  rw [depthAfter]
  split
  · next ho => exact .bump_opener ho
  · next ho =>
    split
    · next hc =>
      cases depth with
      | zero => exact .bump (Bool.eq_false_iff.mpr ho)
      | succ depth => exact .bump_closer hc
    · exact .bump (Bool.eq_false_iff.mpr ho)

/-- Where no lexeme is left, the end has been reached on the front part as well, and nothing is
    left behind it. -/
theorem SafeAt.at_end {a : α} (hend : v.atEnd = true)
    (h : (v.cut c).atEnd = true → q = Pure.pure a) : SafeAt c i k X m v (Pure.pure a) q := by
  rintro s rfl hlies hbounded hX
  have hnil : s.view.lexemes = [] := by
    cases hls : s.view.lexemes with
    | nil => rfl
    | cons l rest =>
      rw [View.atEnd, kind_of_cons hls] at hend
      exact absurd (eq_of_beq hend) (hlies.lexemes.noEnd l (by rw [hls]; exact List.mem_cons_self))
  have hzero : c.behind = 0 := by
    have hle := hbounded.within
    rw [State.left, hnil] at hle
    exact Nat.le_zero.mp hle
  have hcut : (s.view.cut c).atEnd = true := by
    rw [View.atEnd, View.kind, View.kindAt, View.lexemes_cut_of_zero hzero, hnil]
    rfl
  obtain rfl := h hcut
  refine ⟨⟨[], rfl, fun h => absurd hzero h⟩, fun E a' t' hrun => ?_⟩
  cases hrun with
  | done => exact ⟨rfl, rfl⟩

theorem safe_bumpBalanced : Safe c bumpBalanced := by
  refine fun i v => .loop (N := id) (S := fun _ => 0) (I := fun _ => True) (J := fun _ _ => True)
    (fun depth w => .view_bind ?_) (fun _ s _ => wlp_of_forall (fun _ _ _ _ _ => trivial) s)
    (fun _ _ => .pure (Nat.le_refl 0)) fun _ t _ _ _ => trivial
  cases hend : w.atEnd with
  | true =>
    rw [if_pos rfl]
    exact .at_end hend fun hcut => if_pos hcut
  | false =>
    rw [if_neg Bool.false_ne_true]
    refine .eaten (Feeds.first (x := false) (.bump hend)).eats fun hin => ?_
    rw [View.atEnd_cut hin, hend, if_neg Bool.false_ne_true, View.kind_cut hin]
    refine .bind .bump_depth fun _ u => ?_
    dsimp only
    split
    · next hzero => exact .pure (Nat.le_of_eq (eq_of_beq hzero))
    · exact .pure (Nat.le_refl _)

end SafeAt

end Parser

end SwiftOutline
