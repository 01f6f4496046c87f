/-
  SwiftOutline.Proofs.Parser.Advance

  Progress of parsing programs. A program advances if it can be run to its end,
  keeps what has been built in order, and then has consumed a lexeme or left what
  it sees as it was; some results may promise the former. Which rules it can
  follow before it has consumed anything is bounded by their rank, and behind a
  consumed lexeme there is no such bound. The rules for the operations here are
  all that is used of the weakest preconditions when the grammar is gone through.
-/
import SwiftOutline.Grammar.Expression
import SwiftOutline.Proofs.Parser.Growth
import SwiftOutline.Proofs.Parser.Wlp

namespace SwiftOutline

/-! ## Ranks -/

/-- Of two rules that are entered with no lexeme consumed in between, the outer one has the higher
    rank. -/
def Rule.rank : Rule → Nat
  | .items _ => 3
  | .expr _ => 2
  | .ifStmt => 1
  | .type | .pattern _ | .bindingPattern => 0

/-- Decreases from a rule to the rules that it follows. -/
def Rule.weight (r : Rule) (s : State) : Nat := 4 * s.left + r.rank

theorem Rule.rank_lt (r : Rule) : r.rank < 4 := by
  cases r <;> simp [rank]

/-- Whether `r` can be followed at level `k` without a look at the next lexeme. -/
def Rule.opensAt (k : Nat) (r : Rule) : Bool :=
  r.rank < k && r != .ifStmt

/-- Whether a rule consumes a lexeme wherever `v` is seen: an `if` its keyword, an expression what
    it begins with. -/
def Rule.consumes (r : Rule) (v : View) : Prop :=
  match r with
  | .ifStmt => True
  | .expr place => Grammar.beginsExpr place v.kind = true
  | .items _ | .type | .pattern _ | .bindingPattern => False

/-- State `t` is reached from `s` by growing and has consumed a lexeme, or nothing that is seen has
    changed; it has consumed one if it `must`. -/
structure State.Moves (s t : State) (must : Prop) : Prop where
  grows : s.Grows t
  eaten : t.left < s.left ∨ (t.view = s.view ∧ ¬ must)

/-- Rules of a weight below `bound` come to an end. They consume a lexeme or leave what is seen as
    it was; an `if` is followed only at its keyword. -/
def progress (bound : Nat) : Contract where
  admits r s := r.weight s < bound ∧ (r = .ifStmt → s.view.kind = .kwIf)
  ensures r s _ t := s.Moves t (r.consumes s.view)

namespace State

variable {s t u : State} {must must' : Prop}

theorem Moves.mono (h : s.Moves t must) (hmust : must' → must) : s.Moves t must' :=
  ⟨h.grows, h.eaten.imp_right fun ⟨hview, hnot⟩ => ⟨hview, fun hm => hnot (hmust hm)⟩⟩

theorem Moves.stay (s : State) (h : ¬ must) : s.Moves s must :=
  ⟨.refl s, Or.inr ⟨rfl, h⟩⟩

theorem Moves.left_lt (h : s.Moves t must) (hmust : must) : t.left < s.left :=
  h.eaten.resolve_right fun hstay => hstay.2 hmust

theorem Moves.left_le (h : s.Moves t must) : t.left ≤ s.left := by
  rcases h.eaten with hlt | ⟨hview, -⟩
  · exact Nat.le_of_lt hlt
  · exact Nat.le_of_eq (by rw [left, left, hview])

/-- What comes behind a consumed lexeme cannot undo that. -/
theorem Moves.after_lt (hlt : t.left < s.left) (hgrows : s.Grows t) (h : t.Moves u must) :
    s.Moves u must' :=
  ⟨hgrows.trans h.grows, Or.inl (Nat.lt_of_le_of_lt h.left_le hlt)⟩

/-- Where nothing has changed, the same may follow as before. -/
theorem Moves.after_stay (hview : t.view = s.view) (hgrows : s.Grows t) (h : t.Moves u must) :
    s.Moves u must := by
  have hleft : t.left = s.left := by rw [left, left, hview]
  refine ⟨hgrows.trans h.grows, ?_⟩
  rw [← hleft, ← hview]
  exact h.eaten

end State

/-- Whether a round goes on. -/
def Step.goesOn {σ : Type} : Step σ → Prop
  | .again _ => True
  | .stop _ => False

namespace Parser

variable {α β σ : Type} {k l : Nat} {v : View} {P R : α → Prop} {S : β → Prop}

/-- `Advances k v R p` says that `p` comes to an end wherever `v` is seen and rules of a rank below
    `k` can be followed, and that it has then consumed a lexeme or still sees `v`; with a result in
    `R` it has consumed one. No rule has a rank of 4 or more. -/
def Advances (k : Nat) (v : View) (R : α → Prop) (p : Parser α) : Prop :=
  ∀ bound s, s.view = v → 4 * s.left + min k 4 ≤ bound →
    wp (progress bound) p (fun a t => s.Moves t (R a)) s

/-- `p` advances whatever it sees. -/
def Steady (k : Nat) (p : Parser α) : Prop :=
  ∀ v, Advances k v (fun _ => False) p

/-! ## Weakening -/

theorem Advances.mono {p : Parser α} (h : Advances k v P p) (hk : k ≤ l)
    (hR : ∀ a, R a → P a) : Advances l v R p := by
  intro bound s hv hb
  exact wp_mono (fun a t ht => ht.mono (hR a)) (h bound s hv (by omega))

/-- Level 4 asks for the least. -/
theorem Advances.later {p : Parser α} (h : Advances k v R p) : Advances 4 v R p :=
  fun bound s hv hb => h bound s hv (by omega)

theorem Steady.later {p : Parser α} (h : Steady k p) : Steady 4 p :=
  fun v => (h v).later

/-- Promises can be dropped. -/
theorem Advances.forget {p : Parser α} (h : Advances k v R p) :
    Advances k v (fun _ => False) p :=
  h.mono (Nat.le_refl _) fun _ => False.elim

/-! ## Sequencing -/

theorem Advances.pure {a : α} (h : ¬ R a) : Advances k v R (pure a) :=
  fun _ s _ _ => .stay s h

theorem Steady.pure {a : α} : Steady k (Pure.pure a : Parser α) :=
  fun _ => .pure id

/-- After a program that consumed a lexeme all rules can be followed; after one that did not, the
    view is still the same. -/
theorem Advances.bind {p : Parser α} {f : α → Parser β} (hp : Advances k v P p)
    (later : ∀ a, Steady 4 (f a)) (now : ∀ a, ¬ P a → Advances k v S (f a)) :
    Advances k v S (p >>= f) := by
  intro bound s hv hb
  refine wp_bind (wp_mono (fun a t ht => ?_) (hp bound s hv hb))
  rcases ht.eaten with hlt | ⟨hview, hP⟩
  · refine wp_mono (fun b u hu => ?_) (later a t.view bound t rfl (by omega))
    exact hu.after_lt hlt ht.grows
  · have hleft : t.left = s.left := by rw [State.left, State.left, hview]
    refine wp_mono (fun b u hu => ?_) (now a hP bound t (hview.trans hv) (by omega))
    exact hu.after_stay hview ht.grows

/-- Behind a program that always consumes a lexeme, all rules can be followed. -/
theorem Advances.then {p : Parser α} {f : α → Parser β} (hp : Advances k v (fun _ => True) p)
    (later : ∀ a, Steady 4 (f a)) : Advances k v S (p >>= f) :=
  hp.bind later fun _ h => absurd trivial h

theorem Steady.bind {p : Parser α} {f : α → Parser β} (hp : Steady k p)
    (hf : ∀ a, Steady k (f a)) : Steady k (p >>= f) :=
  fun v => (hp v).bind (fun a => (hf a).later) fun a _ => hf a v

/-- A step that is taken under a condition, with `f` behind it in either case. -/
theorem Steady.when {c : Prop} [Decidable c] {p : Parser Unit} {f : Unit → Parser β}
    (hp : c → Steady k p) (hf : ∀ a, Steady k (f a)) :
    Steady k (if c then p >>= f else f ()) := by
  split
  · next h => exact .bind (hp h) hf
  · exact hf ()

/-! ## Looking -/

theorem Advances.view_bind {f : View → Parser β} (h : Advances k v S (f v)) :
    Advances k v S (view >>= f) := by
  intro bound s hv hb
  subst hv
  exact wp_bind (h bound s rfl hb)

theorem Advances.kind_bind {f : TokenKind → Parser β} (h : Advances k v S (f v.kind)) :
    Advances k v S (kind >>= f) := by
  intro bound s hv hb
  subst hv
  exact wp_bind (h bound s rfl hb)

theorem Advances.sees_bind {c : TokenKind} {f : Bool → Parser β}
    (h : Advances k v S (f (v.kind == c))) : Advances k v S (sees c >>= f) := by
  intro bound s hv hb
  subst hv
  exact wp_bind (h bound s rfl hb)

theorem Advances.seesJoined_bind {c : TokenKind} {f : Bool → Parser β}
    (h : Advances k v S (f (v.seesJoined c))) : Advances k v S (Parser.seesJoined c >>= f) := by
  intro bound s hv hb
  subst hv
  exact wp_bind (h bound s rfl hb)

theorem Steady.view_bind {f : View → Parser β} (h : ∀ w, Steady k (f w)) :
    Steady k (view >>= f) :=
  fun v => .view_bind (h v v)

theorem Steady.kind_bind {f : TokenKind → Parser β} (h : ∀ c, Steady k (f c)) :
    Steady k (kind >>= f) :=
  fun v => .kind_bind (h _ v)

theorem Steady.sees_bind {c : TokenKind} {f : Bool → Parser β} (h : ∀ b, Steady k (f b)) :
    Steady k (sees c >>= f) :=
  fun v => .sees_bind (h _ v)

theorem Steady.seesJoined_bind {c : TokenKind} {f : Bool → Parser β} (h : ∀ b, Steady k (f b)) :
    Steady k (Parser.seesJoined c >>= f) :=
  fun v => .seesJoined_bind (h _ v)

/-! ## Operations -/

theorem advances_bump : Advances k v (fun _ => v.atEnd = false) bump := by
  intro bound s hv hb
  subst hv
  refine ⟨State.grows_consume s, ?_⟩
  cases h : s.view.atEnd with
  | true => exact Or.inr ⟨by rw [State.consume_of_atEnd h], by simp⟩
  | false => exact Or.inl (State.left_consume_lt h)

/-- Before the end, a lexeme is consumed. -/
theorem bump_of_not_atEnd {R : Unit → Prop} (h : v.atEnd = false) : Advances k v R bump :=
  advances_bump.mono (Nat.le_refl _) fun _ _ => h

theorem steady_bump : Steady k bump :=
  fun _ => advances_bump.forget

theorem steady_report {p : Problem} : Steady k (report p) :=
  fun _ _ s _ _ => ⟨State.grows_complain s p, Or.inr ⟨rfl, id⟩⟩

theorem admits_of_opensAt {r : Rule} {bound : Nat} {s : State} (hr : r.opensAt k = true)
    (hb : 4 * s.left + min k 4 ≤ bound) : (progress bound).admits r s := by
  have hmax := r.rank_lt
  simp only [Rule.opensAt, Bool.and_eq_true, decide_eq_true_eq, bne_iff_ne] at hr
  obtain ⟨hrank, hif⟩ := hr
  refine ⟨?_, fun h => absurd h hif⟩
  rw [Rule.weight]
  omega

/-- A rule that must consume where it is followed does. -/
theorem advances_follow {r : Rule} (hr : r.opensAt k = true) :
    Advances k v (fun _ => r.consumes v) (follow r) := by
  intro bound s hv hb
  subst hv
  exact ⟨admits_of_opensAt hr hb, fun _ _ ht => ht⟩

theorem steady_follow {r : Rule} (hr : r.opensAt k = true) : Steady k (follow r) :=
  fun _ => (advances_follow hr).forget

theorem advances_follow' {r : Rule} (hr : r.opensAt k = true) :
    Advances k v (fun _ => r.consumes v) (follow' r) := by
  intro bound s hv hb
  subst hv
  exact ⟨admits_of_opensAt hr hb, fun _ _ ht => ht⟩

theorem steady_follow' {r : Rule} (hr : r.opensAt k = true) : Steady k (follow' r) :=
  fun _ => (advances_follow' hr).forget

/-- An `if` is followed at its keyword, and consumes that. -/
theorem follow'_ifStmt {R : Unit → Prop} (hk : 1 < k) (hv : v.kind = .kwIf) :
    Advances k v R (follow' .ifStmt) := by
  intro bound s hs hb
  refine ⟨⟨by simp only [Rule.weight, Rule.rank]; omega, fun _ => hs ▸ hv⟩, fun b t ht => ?_⟩
  exact ht.mono fun _ => trivial

/-! ## Nodes -/

/-- A node is made of what a program produces, if the node can be made of that. -/
theorem Advances.group {adopt : Bool} {p : Parser α} {f : α → β × Option NodeKind}
    (h : Advances k v (fun a => S (f a).1) p)
    (htakes : Ends (fun a t => ∀ n, (f a).2 = some n → n.Takes t.built) p) :
    Advances k v S (.group adopt (p.andThen fun a => .done (f a)) .done) := by
  intro bound s hv hb
  refine wp_andThen (wp_mono (fun a t ht => ?_)
    (wp_and_wlp (h bound (s.start adopt) hv hb) (htakes anything (s.start adopt))))
  exact ⟨ht.1.grows.finish fun n hn => State.fits_of_takes (ht.2 n hn), ht.1.eaten⟩

/-- A node that needs a part is made of a program that ends with one. -/
theorem Advances.nodeWith {n : NodeKind} {p : Parser α} (h : Advances k v R p)
    (htakes : Ends (fun _ t => n.Takes t.built) p) : Advances k v R (node n p) := by
  refine Advances.group (f := fun a => (a, some n)) h fun G s => wlp_mono (fun a t ht n' hn' => ?_)
    (htakes G s)
  obtain rfl := Option.some.inj hn'
  exact ht

theorem ends_takes {n : NodeKind} {p : Parser α} (hn : n.isPlain = true) :
    Ends (fun _ t => n.Takes t.built) p :=
  fun _ => wlp_of_forall fun _ t => takes_of_isPlain hn t.built

theorem Advances.node {n : NodeKind} {p : Parser α} (hn : n.isPlain = true)
    (h : Advances k v R p) : Advances k v R (node n p) :=
  h.nodeWith (ends_takes hn)

theorem Advances.wrap {n : NodeKind} {p : Parser α} (hn : n.isPlain = true)
    (h : Advances k v R p) : Advances k v R (wrap n p) := by
  refine Advances.group (f := fun a => (a, some n)) h fun G s => wlp_mono (fun a t ht n' hn' => ?_)
    (ends_takes hn G s)
  obtain rfl := Option.some.inj hn'
  exact ht

theorem ends_node {n : NodeKind} {p : Parser α} :
    Ends (fun _ t => Tree.Has n t.built) (Parser.node n p) :=
  fun _ _ => wlp_andThen (wlp_of_forall (fun _ _ => ⟨_, List.mem_cons_self, rfl⟩) _)

/-- `p` names no kinds of nodes but such as can be made of anything. -/
def NamesPlain (p : Parser (Option NodeKind)) : Prop :=
  Ends (fun n? _ => ∀ n, n? = some n → n.isPlain = true) p

theorem NamesPlain.some {n : NodeKind} (hn : n.isPlain = true) :
    NamesPlain (Pure.pure (some n)) :=
  .pure fun _ _ h => Option.some.inj h ▸ hn

theorem NamesPlain.none : NamesPlain (Pure.pure none) :=
  .pure fun _ _ h => nomatch h

theorem NamesPlain.bind {p : Parser α} {f : α → Parser (Option NodeKind)}
    (h : ∀ a, NamesPlain (f a)) : NamesPlain (p >>= f) :=
  Ends.bind h

/-- A node of a kind that is named by the program it is made of. -/
theorem Advances.node? {P : Bool → Prop} {p : Parser (Option NodeKind)}
    (h : Advances k v (fun n? => P n?.isSome) p) (hplain : NamesPlain p) :
    Advances k v P (node? p) := by
  refine Advances.group (f := fun n? => (n?.isSome, n?)) h fun G s =>
    wlp_mono (fun n? t ht n hn => ?_) (hplain G s)
  exact takes_of_isPlain (ht n hn) t.built

/-- What consumes a lexeme can be set aside where a problem has been reported. -/
theorem wp_unexpected {bound : Nat} {s : State} {p : Parser α}
    (h : Advances k v (fun _ => True) p) (hv : s.view = v) (hb : 4 * s.left + min k 4 ≤ bound)
    (hreport : ∃ r ∈ s.reports, r.remaining = s.left) :
    wp (progress bound) (Parser.node .unexpected p) (fun _ t => s.Moves t True) s := by
  refine wp_andThen (wp_mono (fun a t ht => ?_) (h bound (s.start false) hv hb))
  refine ⟨ht.grows.finish fun n hn => ?_, ht.eaten⟩
  obtain rfl := Option.some.inj hn
  exact ⟨fun _ => ⟨rfl, ht.left_lt trivial, hreport⟩, fun q hq => nomatch hq⟩

/-- A problem is reported and what stands there is set aside. -/
theorem Advances.setAside {problem : Problem} {p : Parser α}
    (h : Advances k v (fun _ => True) p) :
    Advances k v R (do report problem; Parser.node .unexpected p) := by
  intro bound s hv hb
  have hreport : ∃ r ∈ (s.complain problem).reports, r.remaining = (s.complain problem).left :=
    ⟨⟨problem, s.left⟩, List.mem_cons_self, rfl⟩
  refine wp_bind (wp_report (wp_mono (fun a t ht => ?_) (wp_unexpected h hv hb hreport)))
  exact ⟨(State.grows_complain s problem).trans ht.grows, Or.inl (ht.left_lt trivial)⟩

theorem Advances.inDirective {p : Parser α}
    (h : Advances k { v with directives := v.directives + 1 } R p) :
    Advances k v R (inDirective p) := by
  intro bound s hv hb
  subst hv
  rw [Parser.inDirective, wp]
  refine wp_mono (fun a t ht => ?_) (h bound (s.withDirectives (s.view.directives + 1)) rfl hb)
  refine ⟨ht.grows.withDirectives, ?_⟩
  rcases ht.eaten with hlt | ⟨hview, hR⟩
  · exact Or.inl hlt
  · exact Or.inr ⟨by simp [hview], hR⟩

theorem Steady.node {n : NodeKind} {p : Parser α} (hn : n.isPlain = true) (h : Steady k p) :
    Steady k (node n p) :=
  fun v => .node hn (h v)

theorem Steady.wrap {n : NodeKind} {p : Parser α} (hn : n.isPlain = true) (h : Steady k p) :
    Steady k (wrap n p) :=
  fun v => .wrap hn (h v)

theorem Steady.node? {p : Parser (Option NodeKind)} (h : Steady k p) (hplain : NamesPlain p) :
    Steady k (node? p) :=
  fun v => Advances.node? (P := fun _ => False) (h v) hplain

/-! ## Loops -/

/-- A loop advances if each of its rounds does and a round that goes on has consumed a lexeme. -/
theorem Advances.loop {round : σ → Parser (Step σ)} {init : σ} {next : σ → Parser β}
    {P : Step σ → Prop} (first : Advances k v P (round init)) (hP : ∀ x, P (.again x))
    (rounds : ∀ x w, Advances 4 w Step.goesOn (round x))
    (later : ∀ x, Steady 4 (next x))
    (now : ∀ x, ¬ P (.stop x) → Advances k v S (next x)) :
    Advances k v S (.loop round init next) := by
  intro bound s hv hb
  -- either something has been consumed, or this is the first round
  refine ⟨fun x t => s.Grows t ∧ (t.left < s.left ∨ (x = init ∧ t = s)),
    ⟨.refl s, Or.inr ⟨rfl, rfl⟩⟩, fun x t ⟨hgrows, ht⟩ => ?_⟩
  rcases ht with hlt | ⟨rfl, rfl⟩
  · refine wp_mono (fun step u hu => ?_) (rounds x t.view bound t rfl (by omega))
    have hgrows' : s.Grows u := hgrows.trans hu.grows
    have hlt' : u.left < s.left := Nat.lt_of_le_of_lt hu.left_le hlt
    cases step with
    | again y => exact ⟨hu.left_lt trivial, hgrows', Or.inl hlt'⟩
    | stop y =>
      refine wp_mono (fun b w hw => ?_) (later y u.view bound u rfl (by omega))
      exact hw.after_lt hlt' hgrows'
  · refine wp_mono (fun step u hu => ?_) (first bound t hv hb)
    cases step with
    | again y => exact ⟨hu.left_lt (hP y), hu.grows, Or.inl (hu.left_lt (hP y))⟩
    | stop y =>
      rcases hu.eaten with hlt | ⟨hview, hP'⟩
      · refine wp_mono (fun b w hw => ?_) (later y u.view bound u rfl (by omega))
        exact hw.after_lt hlt hu.grows
      · have hleft : u.left = t.left := by rw [State.left, State.left, hview]
        refine wp_mono (fun b w hw => ?_) (now y hP' bound u (hview.trans hv) (by omega))
        exact hw.after_stay hview hu.grows

end Parser

end SwiftOutline
