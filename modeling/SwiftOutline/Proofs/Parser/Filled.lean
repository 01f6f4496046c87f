/-
  SwiftOutline.Proofs.Parser.Filled

  Which nodes have tokens. A node that introduces declarations has some in every
  text, and where no problem is reported every node has, the arguments of
  attributes apart. A node is told to have tokens by the program it is made of:
  one that consumes a lexeme, or else reports a problem. That is for the most
  part decided by its first or its last step alone, since no program gives back
  what it has consumed or reported.
-/
import SwiftOutline.Outline.Declaration
import SwiftOutline.Proofs.Parser.Combinator

namespace SwiftOutline

/-! ## Trees -/

/-- Whether every node of a tree of a kind that matters has a token. -/
inductive Tree.Filled (matters : NodeKind → Prop) : Tree → Prop where
  | leaf {t : Token} : Filled matters (.leaf t)
  | node {k : NodeKind} {children : List Tree}
      (tokens : matters k → Tree.forestLeaves children ≠ [])
      (inside : ∀ t ∈ children, Filled matters t) : Filled matters (.node k children)

theorem Tree.Filled.mono {P Q : NodeKind → Prop} {t : Tree} (h : t.Filled P)
    (hPQ : ∀ k, Q k → P k) : t.Filled Q := by
  induction h with
  | leaf => exact .leaf
  | node tokens _ ih => exact .node (fun hk => tokens (hPQ _ hk)) ih

/-- Whether nodes of a kind introduce declarations. -/
def NodeKind.isDeclared (k : NodeKind) : Bool := (DeclarationKind.ofNode? k).isSome

/-! ## States -/

namespace State

variable {s t u : State}

/-- Whether nodes of a kind need tokens: if they introduce declarations, and as long as nothing has
    been reported. -/
def Minds (s : State) (k : NodeKind) : Prop :=
  k.isDeclared = true ∨ (s.reports = [] ∧ k ≠ .attributeArgument)

/-- All nodes that have been built have the tokens that they need. -/
def Filled (s : State) : Prop := ∀ t ∈ s.built, t.Filled s.Minds

/-- What every program does to a state: it consumes lexemes into leaves, and keeps what has been
    reported. -/
structure Reaches (s t : State) : Prop where
  leads : s.Leads t
  reports : s.reports ≠ [] → t.reports ≠ []

theorem Reaches.refl (s : State) : s.Reaches s := ⟨.refl s, id⟩

theorem Reaches.trans (h : s.Reaches t) (h' : t.Reaches u) : s.Reaches u :=
  ⟨h.leads.trans h'.leads, fun hs => h'.reports (h.reports hs)⟩

theorem reaches_consume (s : State) : s.Reaches s.consume := by
  refine ⟨leads_consume s, fun hs => ?_⟩
  unfold consume
  split
  · exact hs
  · split
    · exact hs
    · exact hs

theorem reaches_complain (s : State) (p : Problem) : s.Reaches (s.complain p) :=
  ⟨(grows_complain s p).leads, fun _ => List.cons_ne_nil _ _⟩

theorem Reaches.finish {adopt : Bool} {k? : Option NodeKind} (h : (s.start adopt).Reaches t) :
    s.Reaches (t.finish s adopt k?) :=
  ⟨h.leads.finish, h.reports⟩

theorem Reaches.withDirectives {m n : Nat} (h : (s.withDirectives m).Reaches t) :
    s.Reaches (t.withDirectives n) :=
  ⟨h.leads.withDirectives, h.reports⟩

theorem Reaches.left_le (h : s.Reaches t) : t.left ≤ s.left := by
  obtain ⟨eaten, hlexemes, -⟩ := h.leads
  rw [left, left, hlexemes, List.length_append]
  omega

/-- With more reports, fewer nodes need tokens. -/
theorem Reaches.minds (h : s.Reaches t) {k : NodeKind} (hk : t.Minds k) : s.Minds k :=
  hk.imp_right fun ⟨hreports, hne⟩ =>
    ⟨Classical.byContradiction fun hs => h.reports hs hreports, hne⟩

/-! ### Operations -/

theorem Filled.consume (h : s.Filled) : s.consume.Filled := by
  cases hend : s.view.atEnd with
  | true => rwa [consume_of_atEnd hend]
  | false =>
    obtain ⟨l, ls, -, -, hconsume⟩ := consume_of_not_atEnd hend
    rw [hconsume]
    intro t ht
    rcases List.mem_cons.mp ht with rfl | ht
    · exact .leaf
    · exact h t ht

theorem Filled.complain (h : s.Filled) (p : Problem) : (s.complain p).Filled :=
  fun t ht => (h t ht).mono fun _ => (reaches_complain s p).minds

theorem Filled.start (h : s.Filled) (adopt : Bool) : (s.start adopt).Filled := by
  obtain ⟨before, hbuilt, -⟩ := s.exists_built_start adopt
  intro t ht
  refine h t ?_
  rw [hbuilt]
  exact List.mem_append_left _ ht

/-- A node can be made of what has been built since `s` if lexemes have been consumed since, or no
    tokens are needed. -/
theorem Filled.finish {adopt : Bool} {k? : Option NodeKind} (hs : s.Filled) (ht : t.Filled)
    (h : (s.start adopt).Reaches t) (hk : ∀ k, k? = some k → t.Minds k → t.left < s.left) :
    (t.finish s adopt k?).Filled := by
  obtain ⟨before, hbuilt, hbefore⟩ := s.exists_built_start adopt
  have hbefores : ∀ u ∈ before, u.Filled t.Minds := by
    intro u hu
    have hu' : u ∈ s.built := by
      rw [hbuilt]
      exact List.mem_append_right _ hu
    exact (hs u hu').mono fun k hk => h.minds hk
  intro u hu
  cases k? with
  | none =>
    simp only [State.finish, hbefore] at hu
    rcases List.mem_append.mp hu with hu | hu
    · exact ht u hu
    · exact hbefores u hu
  | some k =>
    simp only [State.finish, hbefore] at hu
    rcases List.mem_cons.mp hu with rfl | hu
    · refine .node (fun hminds hnil => ?_) fun u hu => ht u (List.mem_reverse.mp hu)
      -- what has been consumed is among the leaves
      have hlt := hk k rfl hminds
      have hlength := h.leads.length_add_left
      rw [hnil] at hlength
      have hleft : (s.start adopt).left = s.left := rfl
      rw [List.length_nil] at hlength
      omega
    · exact hbefores u hu

end State

/-! ## Programs -/

/-- Whether a rule reports a problem where it consumes nothing. A list of items may be empty. -/
def Rule.tells : Rule → Bool
  | .items _ => false
  | .type | .pattern _ | .bindingPattern | .expr _ | .ifStmt => true

/-- What is known of a rule that is followed from `s` up to `t`. -/
structure Filling (r : Rule) (s : State) (found : Bool) (t : State) : Prop where
  reaches : s.Reaches t
  filled : s.Filled → t.Filled
  told : r.tells = true → t.left < s.left ∨ t.reports ≠ []
  moves : (r = .ifStmt → s.view.kind = .kwIf) → s.Moves t (r.consumes s.view)

namespace Parser

variable {α β σ : Type} {x : Bool} {k : NodeKind} {v : View} {p : Parser α} {f : α → Parser β}

theorem wlp_reaches (p : Parser α) (s : State) : wlp Filling p (fun _ t => s.Reaches t) s := by
  induction p generalizing s with
  | done a => exact .refl s
  | look next ih => exact ih s.view s
  | consume next ih => exact wlp_mono (fun _ _ h => s.reaches_consume.trans h) (ih s.consume)
  | complain p next ih =>
    exact wlp_mono (fun _ _ h => (s.reaches_complain p).trans h) (ih (s.complain p))
  | group adopt body next ihb ihn =>
    rw [wlp]
    exact wlp_mono (fun r t h => wlp_mono (fun _ _ h' => h.finish.trans h') (ihn r.1 _)) (ihb _)
  | directive body next ihb ihn =>
    rw [wlp]
    exact wlp_mono (fun b t h => wlp_mono (fun _ _ h' => h.withDirectives.trans h') (ihn b _))
      (ihb _)
  | call r next ih =>
    exact fun b t h => wlp_mono (fun _ _ h' => h.reaches.trans h') (ih b t)
  | loop round init next ihr ihn =>
    refine ⟨fun _ t => s.Reaches t, .refl s, fun a t ht => wlp_mono (fun step u hu => ?_) (ihr a t)⟩
    cases step with
    | again b => exact ht.trans hu
    | stop b => exact wlp_mono (fun _ _ h => (ht.trans hu).trans h) (ihn b u)

/-- Rules make the progress that is known of them. -/
theorem moves_of_filling {bound : Nat} (r : Rule) (s : State) (b : Bool) (t : State)
    (hadmits : (progress bound).admits r s) (h : Filling r s b t) :
    (progress bound).ensures r s b t :=
  h.moves hadmits.2

/-! ### Consuming or reporting -/

/-- `p` consumes a lexeme wherever `v` is seen, or else a problem has been reported; not so if it is
    to consume for sure. -/
def Feeds (sure : Bool) (v : View) (p : Parser α) : Prop :=
  ∀ s, s.view = v →
    wlp Filling p (fun _ t => t.left < s.left ∨ (sure = false ∧ t.reports ≠ [])) s

/-- What is fed stays fed. -/
theorem fed_of_reaches {s t u : State} (h : t.left < s.left ∨ (x = false ∧ t.reports ≠ []))
    (h' : t.Reaches u) : u.left < s.left ∨ (x = false ∧ u.reports ≠ []) := by
  rcases h with hlt | ⟨hx, hreports⟩
  · exact .inl (Nat.lt_of_le_of_lt h'.left_le hlt)
  · exact .inr ⟨hx, h'.reports hreports⟩

namespace Feeds

theorem weaken (h : Feeds true v p) : Feeds x v p :=
  fun s hs => wlp_mono (fun _ _ ht => .inl (ht.resolve_right fun h' => nomatch h'.1)) (h s hs)

/-- What is known to advance feeds. -/
theorem of_advances (h : Advances 4 v (fun _ => True) p) : Feeds x v p := by
  intro s hs
  have hwlp := wlp_of_wp moves_of_filling (h (4 * s.left + 4) s hs (by omega))
  exact wlp_mono (fun _ _ ht => .inl (ht.left_lt trivial)) hwlp

/-! #### Sequencing -/

/-- The first step decides. -/
theorem first (h : Feeds x v p) : Feeds x v (p >>= f) :=
  fun s hs => wlp_andThen (wlp_mono (fun a t ht =>
    wlp_mono (fun _ _ hu => fed_of_reaches ht hu) (wlp_reaches (f a) t)) (h s hs))

/-- What comes behind the first step decides, whatever is seen there. -/
theorem last (h : ∀ a w, Feeds x w (f a)) : Feeds x v (p >>= f) := by
  refine fun s hs => wlp_andThen (wlp_mono (fun a t ht => ?_) (wlp_reaches p s))
  refine wlp_mono (fun _ u hu => ?_) (h a t.view t rfl)
  exact hu.imp_left fun hlt => Nat.lt_of_lt_of_le hlt ht.left_le

/-- If the first step has consumed nothing, the same is seen behind it. -/
theorem behind (hp : Steady 4 p) (h : ∀ a, Feeds x v (f a)) : Feeds x v (p >>= f) := by
  intro s hs
  have hmoves := wlp_of_wp moves_of_filling (hp v (4 * s.left + 4) s hs (by omega))
  refine wlp_andThen (wlp_mono (fun a t ht => ?_) hmoves)
  rcases ht.eaten with hlt | ⟨hview, -⟩
  · exact wlp_mono (fun _ _ hu => fed_of_reaches (.inl hlt) hu) (wlp_reaches (f a) t)
  · have hleft : t.left = s.left := by rw [State.left, State.left, hview]
    rw [← hleft]
    exact h a t (hview.trans hs)

theorem view_bind {f : View → Parser β} (h : Feeds x v (f v)) : Feeds x v (view >>= f) := by
  intro s hs
  subst hs
  exact h s rfl

theorem kind_bind {f : TokenKind → Parser β} (h : Feeds x v (f v.kind)) :
    Feeds x v (kind >>= f) := by
  intro s hs
  subst hs
  exact h s rfl

theorem sees_bind {c : TokenKind} {f : Bool → Parser β} (h : Feeds x v (f (v.kind == c))) :
    Feeds x v (sees c >>= f) := by
  intro s hs
  subst hs
  exact h s rfl

/-! #### Operations -/

theorem bump (h : v.atEnd = false) : Feeds x v bump :=
  .of_advances (bump_of_not_atEnd h)

theorem bump_kind {c : TokenKind} (h : v.kind = c) (hc : (c == .eof) = false) :
    Feeds x v Parser.bump :=
  .of_advances (bump_of_kind h hc)

theorem report {problem : Problem} : Feeds false v (report problem) :=
  fun _ _ => .inr ⟨rfl, List.cons_ne_nil _ _⟩

theorem follow {r : Rule} (hr : r.tells = true) : Feeds false v (follow r) :=
  fun _ _ _ _ h => (h.told hr).imp_right fun hreports => ⟨rfl, hreports⟩

theorem follow' {r : Rule} (hr : r.tells = true) : Feeds false v (follow' r) :=
  fun _ _ _ _ h => (h.told hr).imp_right fun hreports => ⟨rfl, hreports⟩

theorem eat {c : TokenKind} (h : (v.kind == c) = true) (hc : (c == .eof) = false) :
    Feeds x v (eat c) := by
  refine .sees_bind ?_
  rw [if_pos h]
  exact .first (.bump (View.atEnd_of_beq h hc))

/-- Where nothing is eaten, what follows decides. -/
theorem eat_bind_not {c : TokenKind} {f : Bool → Parser β} (h : (v.kind == c) = false)
    (hf : Feeds x v (f false)) : Feeds x v (Parser.eat c >>= f) := by
  rintro s rfl
  show wlp Filling (Parser.andThen
    (if s.view.kind == c then (do Parser.bump; pure true) else pure false) f) _ s
  rw [if_neg (by rw [h]; exact Bool.false_ne_true)]
  exact hf s rfl

theorem expect {c : TokenKind} {problem : Problem} (hc : (c == .eof) = false) :
    Feeds false v (expect c problem) := by
  rintro s rfl
  show wlp Filling (Parser.andThen
    (if s.view.kind == c then (do Parser.bump; pure true) else pure false) _) _ s
  split
  · next h => exact .inl (State.left_consume_lt (View.atEnd_of_beq h hc))
  · exact .inr ⟨rfl, List.cons_ne_nil _ _⟩

theorem require {c : TokenKind} {problem : Problem} (hc : (c == .eof) = false) :
    Feeds false v (require c problem) :=
  .first (.expect hc)

/-- Of an opener, what is inside and a closer, the closer decides. -/
theorem closed {γ : Type} {q : α → Parser γ} {c : TokenKind} {problem : Problem}
    (hc : (c == .eof) = false) :
    Feeds false v (p >>= fun a => q a >>= fun _ => Parser.require c problem) :=
  .last fun _ _ => .last fun _ _ => .require hc

theorem group {adopt : Bool} {f : α → β × Option NodeKind} (h : Feeds x v p) :
    Feeds x v (.group adopt (p.andThen fun a => .done (f a)) .done) :=
  fun s hs => wlp_andThen (h (s.start adopt) hs)

theorem node (h : Feeds x v p) : Feeds x v (node k p) := h.group

theorem wrap (h : Feeds x v p) : Feeds x v (wrap k p) := h.group

theorem node? {p : Parser (Option NodeKind)} (h : Feeds x v p) : Feeds x v (node? p) := h.group

theorem inDirective (h : Feeds x { v with directives := v.directives + 1 } p) :
    Feeds x v (inDirective p) := by
  rintro s rfl
  exact h (s.withDirectives (s.view.directives + 1)) rfl

/-- The first round of a loop decides. -/
theorem loop {round : σ → Parser (Step σ)} {init : σ} {next : σ → Parser β}
    (h : Feeds x v (round init)) : Feeds x v (.loop round init next) := by
  intro s hs
  -- nothing has happened yet, or the first round has been made
  refine ⟨fun y t => (y = init ∧ t = s) ∨ t.left < s.left ∨ (x = false ∧ t.reports ≠ []),
    .inl ⟨rfl, rfl⟩, fun y t ht => ?_⟩
  have hround : wlp Filling (round y)
      (fun _ u => u.left < s.left ∨ (x = false ∧ u.reports ≠ [])) t := by
    rcases ht with ⟨rfl, rfl⟩ | ht
    · exact h t hs
    · exact wlp_mono (fun _ _ hu => fed_of_reaches ht hu) (wlp_reaches (round y) t)
  refine wlp_mono (fun step u hu => ?_) hround
  cases step with
  | again z => exact .inr hu
  | stop z => exact wlp_mono (fun _ _ hw => fed_of_reaches hu hw) (wlp_reaches (next z) u)

theorem repeating {body : Parser Bool} (h : Feeds x v body) : Feeds x v (repeating body) :=
  .loop (.first h)

theorem separated {element : Parser Bool} (h : Feeds x v element) :
    Feeds x v (separated element) :=
  .repeating (.first h)

end Feeds

/-! ### Keeping nodes filled -/

/-- `p` keeps nodes filled wherever `v` is seen. -/
def NeatAt (v : View) (p : Parser α) : Prop :=
  ∀ s, s.view = v → s.Filled → wlp Filling p (fun _ t => t.Filled) s

/-- `p` keeps nodes filled whatever it sees. -/
def Neat (p : Parser α) : Prop := ∀ v, NeatAt v p

/-! #### Sequencing -/

theorem Neat.pure {a : α} : Neat (Pure.pure a : Parser α) := fun _ _ _ h => h

theorem NeatAt.bind (hp : NeatAt v p) (hf : ∀ a, Neat (f a)) : NeatAt v (p >>= f) :=
  fun s hs h => wlp_andThen (wlp_mono (fun a t ht => hf a t.view t rfl ht) (hp s hs h))

theorem Neat.bind (hp : Neat p) (hf : ∀ a, Neat (f a)) : Neat (p >>= f) :=
  fun v => (hp v).bind hf

/-- A step that is taken under a condition, with `f` behind it in either case. -/
theorem Neat.when {c : Prop} [Decidable c] {p : Parser Unit} {f : Unit → Parser β}
    (hp : c → Neat p) (hf : ∀ a, Neat (f a)) : Neat (if c then p >>= f else f ()) := by
  split
  · next h => exact .bind (hp h) hf
  · exact hf ()

theorem NeatAt.view_bind {f : View → Parser β} (h : NeatAt v (f v)) : NeatAt v (view >>= f) := by
  rintro s rfl hs
  exact h s rfl hs

theorem NeatAt.kind_bind {f : TokenKind → Parser β} (h : NeatAt v (f v.kind)) :
    NeatAt v (kind >>= f) := by
  rintro s rfl hs
  exact h s rfl hs

theorem NeatAt.sees_bind {c : TokenKind} {f : Bool → Parser β} (h : NeatAt v (f (v.kind == c))) :
    NeatAt v (sees c >>= f) := by
  rintro s rfl hs
  exact h s rfl hs

theorem NeatAt.seesJoined_bind {c : TokenKind} {f : Bool → Parser β}
    (h : NeatAt v (f (v.seesJoined c))) : NeatAt v (seesJoined c >>= f) := by
  rintro s rfl hs
  exact h s rfl hs

theorem Neat.view_bind {f : View → Parser β} (h : ∀ w, Neat (f w)) : Neat (view >>= f) :=
  fun v => .view_bind (h v v)

theorem Neat.kind_bind {f : TokenKind → Parser β} (h : ∀ c, Neat (f c)) : Neat (kind >>= f) :=
  fun v => .kind_bind (h _ v)

theorem Neat.sees_bind {c : TokenKind} {f : Bool → Parser β} (h : ∀ b, Neat (f b)) :
    Neat (sees c >>= f) :=
  fun v => .sees_bind (h _ v)

theorem Neat.seesJoined_bind {c : TokenKind} {f : Bool → Parser β} (h : ∀ b, Neat (f b)) :
    Neat (seesJoined c >>= f) :=
  fun v => .seesJoined_bind (h _ v)

/-! #### Operations -/

theorem neat_bump : Neat bump := fun _ _ _ h => h.consume

theorem neat_report {problem : Problem} : Neat (report problem) := fun _ _ _ h => h.complain problem

/-- Behind a report the same is seen. -/
theorem NeatAt.report_bind {problem : Problem} (h : NeatAt v p) :
    NeatAt v (do report problem; p) :=
  fun s hs hfilled => h (s.complain problem) hs (hfilled.complain problem)

theorem neat_follow {r : Rule} : Neat (follow r) := fun _ _ _ h _ _ hr => hr.filled h

theorem neat_follow' {r : Rule} : Neat (follow' r) := fun _ _ _ h _ _ hr => hr.filled h

/-- A node is made of what a program produces, if that has the tokens that the node needs. -/
theorem NeatAt.group {adopt : Bool} {f : α → β × Option NodeKind} (hp : NeatAt v p)
    (hfed : ∀ s, s.view = v → wlp Filling p (fun a t =>
      ∀ k, (f a).2 = some k → t.Minds k → t.left < s.left) s) :
    NeatAt v (.group adopt (p.andThen fun a => .done (f a)) .done) := by
  intro s hs h
  refine wlp_andThen (wlp_mono (fun a t ht => ?_) (wlp_and (wlp_reaches p (s.start adopt))
    (wlp_and (hp (s.start adopt) hs (h.start adopt)) (hfed (s.start adopt) hs))))
  exact h.finish ht.2.1 ht.1 ht.2.2

theorem lt_of_fed {s t : State} (hk : x = true ∨ k.isDeclared = false)
    (h : t.left < s.left ∨ (x = false ∧ t.reports ≠ [])) (hminds : t.Minds k) :
    t.left < s.left := by
  rcases h with hlt | ⟨hx, hreports⟩
  · exact hlt
  · rcases hminds with hdeclared | ⟨hnone, -⟩
    · rcases hk with hk | hk
      · exact absurd hk (by rw [hx]; exact Bool.false_ne_true)
      · exact absurd hdeclared (by rw [hk]; exact Bool.false_ne_true)
    · exact absurd hnone hreports

/-- A node that introduces declarations is made of a program that consumes for sure. -/
theorem NeatAt.nodeWith (hk : x = true ∨ k.isDeclared = false) (hp : NeatAt v p)
    (hfed : Feeds x v p) : NeatAt v (node k p) := by
  refine NeatAt.group (f := fun a => (a, some k)) hp fun s hs => ?_
  refine wlp_mono (fun a t ht n hn hminds => ?_) (hfed s hs)
  obtain rfl := Option.some.inj hn
  exact lt_of_fed hk ht hminds

theorem NeatAt.wrapWith (hk : x = true ∨ k.isDeclared = false) (hp : NeatAt v p)
    (hfed : Feeds x v p) : NeatAt v (wrap k p) := by
  refine NeatAt.group (f := fun a => (a, some k)) hp fun s hs => ?_
  refine wlp_mono (fun a t ht n hn hminds => ?_) (hfed s hs)
  obtain rfl := Option.some.inj hn
  exact lt_of_fed hk ht hminds

/-- Every other node is made of a program that consumes, or reports what is missing. -/
theorem NeatAt.node (hk : k.isDeclared = false) (hp : NeatAt v p) (hfed : Feeds false v p) :
    NeatAt v (node k p) :=
  .nodeWith (.inr hk) hp hfed

theorem NeatAt.wrap (hk : k.isDeclared = false) (hp : NeatAt v p) (hfed : Feeds false v p) :
    NeatAt v (wrap k p) :=
  .wrapWith (.inr hk) hp hfed

theorem Neat.node (hk : k.isDeclared = false) (hp : Neat p) (hfed : ∀ v, Feeds false v p) :
    Neat (node k p) :=
  fun v => .node hk (hp v) (hfed v)

/-- A node of a kind that is named by a program which consumes if it names one. -/
theorem NeatAt.node? {p : Parser (Option NodeKind)} (hp : NeatAt v p)
    (h : Advances 4 v (fun n? => n?.isSome = true) p) : NeatAt v (node? p) := by
  refine NeatAt.group (f := fun n? => (n?.isSome, n?)) hp fun s hs => ?_
  have hmoves := wlp_of_wp moves_of_filling (h (4 * s.left + 4) s hs (by omega))
  refine wlp_mono (fun n? t ht n hn _ => ht.left_lt ?_) hmoves
  exact Option.isSome_iff_exists.mpr ⟨n, hn⟩

/-- `p` names no kinds of nodes that introduce declarations. -/
def NamesOther (p : Parser (Option NodeKind)) : Prop :=
  Ends (fun n? _ => ∀ n, n? = some n → n.isDeclared = false) p

theorem NamesOther.some {n : NodeKind} (hn : n.isDeclared = false) :
    NamesOther (Pure.pure (some n)) :=
  .pure fun _ _ h => Option.some.inj h ▸ hn

theorem NamesOther.none : NamesOther (Pure.pure none) :=
  .pure fun _ _ h => nomatch h

theorem NamesOther.bind {f : α → Parser (Option NodeKind)} (h : ∀ a, NamesOther (f a)) :
    NamesOther (p >>= f) :=
  Ends.bind h

/-- A node of a kind that is named by a program which consumes for sure, or does or reports and
    names no kinds that introduce declarations. -/
theorem NeatAt.nodeNamed {p : Parser (Option NodeKind)} (hother : x = true ∨ NamesOther p)
    (hp : NeatAt v p) (hfed : Feeds x v p) : NeatAt v (Parser.node? p) := by
  refine NeatAt.group (f := fun n? => (n?.isSome, n?)) hp fun s hs => ?_
  rcases hother with rfl | hother
  · exact wlp_mono (fun _ _ ht _ _ hminds => lt_of_fed (.inl rfl) ht hminds) (hfed s hs)
  · refine wlp_mono (fun n? t ht n hn hminds => ?_) (wlp_and (hfed s hs) (hother Filling s))
    exact lt_of_fed (.inr (ht.2 n hn)) ht.1 hminds

/-- An argument of an attribute may be empty. -/
theorem Neat.attributeArgument (hp : Neat p) : Neat (Parser.node .attributeArgument p) := by
  refine fun v => NeatAt.group (f := fun a => (a, some .attributeArgument)) (hp v) fun s _ => ?_
  refine wlp_of_forall (fun a t n hn hminds => ?_) s
  obtain rfl := Option.some.inj hn
  rcases hminds with hdeclared | ⟨-, hne⟩
  · exact absurd hdeclared (by decide)
  · exact absurd rfl hne

theorem NeatAt.inDirective (h : NeatAt { v with directives := v.directives + 1 } p) :
    NeatAt v (inDirective p) := by
  rintro s rfl hs
  exact h (s.withDirectives (s.view.directives + 1)) rfl hs

/-! #### Loops -/

theorem Neat.loop {round : σ → Parser (Step σ)} {init : σ} {next : σ → Parser β}
    (h : ∀ y, Neat (round y)) (hnext : ∀ y, Neat (next y)) : Neat (.loop round init next) := by
  intro v s hs hfilled
  refine ⟨fun _ t => t.Filled, hfilled, fun y t ht => ?_⟩
  refine wlp_mono (fun step u hu => ?_) (h y _ t rfl ht)
  cases step with
  | again z => exact hu
  | stop z => exact hnext z u.view u rfl hu

theorem Neat.repeating {body : Parser Bool} (h : Neat body) : Neat (repeating body) :=
  .loop (fun _ => .bind h fun _ => .pure) fun _ => .pure

theorem neat_eat {c : TokenKind} : Neat (eat c) := by
  refine .sees_bind fun b => ?_
  split
  · exact .bind neat_bump fun _ => .pure
  · exact .pure

theorem neat_expect {c : TokenKind} {problem : Problem} : Neat (expect c problem) := by
  refine .bind neat_eat fun b => ?_
  split
  · exact .pure
  · exact .bind neat_report fun _ => .pure

theorem neat_require {c : TokenKind} {problem : Problem} : Neat (require c problem) :=
  .bind neat_expect fun _ => .pure

theorem Neat.ifSees {c : TokenKind} {p : Parser Unit} (h : ∀ v : View, v.kind = c → NeatAt v p) :
    Neat (do if ← sees c then p) := by
  refine fun v => .sees_bind ?_
  split
  · next hc => exact h v (eq_of_beq hc)
  · exact Neat.pure v

theorem Neat.separated {element : Parser Bool} (h : Neat element) : Neat (separated element) := by
  refine .repeating (.bind h fun b => ?_)
  split
  · exact neat_eat
  · exact .pure

theorem Neat.separatedUntil {closer : TokenKind} {element : Parser Bool} (h : Neat element) :
    Neat (separatedUntil closer element) := by
  refine .repeating (.view_bind fun w => ?_)
  split
  · exact .pure
  · refine .bind h fun b => ?_
    split
    · exact neat_eat
    · exact .pure

/-! #### Shapes of nodes -/

/-- A node of the lexeme ahead. -/
theorem NeatAt.single (hk : k.isDeclared = false) (h : v.atEnd = false) :
    NeatAt v (Parser.node k Parser.bump) :=
  .node hk (neat_bump v) (.bump h)

theorem NeatAt.wrapSingle (hk : k.isDeclared = false) (h : v.atEnd = false) :
    NeatAt v (Parser.wrap k Parser.bump) :=
  .wrap hk (neat_bump v) (.bump h)

/-- A node that begins with the lexeme ahead. -/
theorem NeatAt.opened {f : Unit → Parser α} (hk : k.isDeclared = false) (h : v.atEnd = false)
    (hf : ∀ a, Neat (f a)) : NeatAt v (Parser.node k (Parser.bump >>= f)) :=
  .node hk (Neat.bind neat_bump hf v) (.first (.bump h))

theorem NeatAt.wrapOpened {f : Unit → Parser α} (hk : k.isDeclared = false) (h : v.atEnd = false)
    (hf : ∀ a, Neat (f a)) : NeatAt v (Parser.wrap k (Parser.bump >>= f)) :=
  .wrap hk (Neat.bind neat_bump hf v) (.first (.bump h))

/-- A word, and what a rule makes or reports to be missing behind it. -/
theorem Neat.introduced {r : Rule} (hk : k.isDeclared = false) (hr : r.tells = true) :
    Neat (Parser.node k do Parser.bump; Parser.follow' r) :=
  .node hk (.bind neat_bump fun _ => neat_follow') fun _ => .last fun _ _ => .follow' hr

/-- What a rule makes in brackets, where the bracket behind it is reported to be missing. -/
theorem Neat.enclosed {r : Rule} {closer : TokenKind} {problem : Problem}
    (hk : k.isDeclared = false) (hc : (closer == .eof) = false) :
    Neat (Parser.node k do Parser.bump; Parser.follow' r; Parser.require closer problem) :=
  .node hk (.bind neat_bump fun _ => .bind neat_follow' fun _ => neat_require) fun _ => .closed hc

/-- A list in brackets. -/
theorem Neat.listed {element : Parser Bool} {stop closer : TokenKind} {problem : Problem}
    (hk : k.isDeclared = false) (hc : (closer == .eof) = false) (h : Neat element) :
    Neat (Parser.node k do
      Parser.bump
      Parser.separatedUntil stop element
      Parser.require closer problem) := by
  refine .node hk (.bind neat_bump fun _ => ?_) fun _ => .closed hc
  exact .bind (.separatedUntil h) fun _ => neat_require

/-! #### Groups and recovery -/

theorem neat_bumpBalanced : Neat bumpBalanced := by
  refine .loop (fun depth => .view_bind fun w => ?_) fun _ => .pure
  split
  · exact .pure
  · exact .bind neat_bump fun _ => .pure

theorem neat_recover {problem : Problem} : Neat (recover problem) := by
  refine .bind neat_report fun _ v => .view_bind ?_
  split
  · exact Neat.pure v
  · next h =>
    refine .node rfl (neat_bumpBalanced v) (.of_advances ?_)
    exact bumpBalanced_of_not_atEnd (by simpa using h)

end Parser

end SwiftOutline
