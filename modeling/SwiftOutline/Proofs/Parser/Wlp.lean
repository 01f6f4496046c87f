/-
  SwiftOutline.Proofs.Parser.Wlp

  What holds wherever a parsing program ends, for partial runs: neither loops nor
  rules have to make progress. What the rules do that a program follows may be
  known or not; the last operations of a program bring some facts about by
  themselves, such as the kind of the node that was built last.
-/
import SwiftOutline.Proofs.Parser.Makes
import SwiftOutline.Proofs.Parser.Proceeds

namespace SwiftOutline

namespace Parser

variable {α β : Type} {C : Contract}

/-! ## Weakest liberal preconditions -/

/-- What rules guarantee about their outcome, given where they were followed. -/
abbrev Outcomes := Rule → State → Bool → State → Prop

/-- Nothing is known of the rules. -/
def anything : Outcomes := fun _ _ _ _ => True

/-- `wlp G p Q s` says that `Q` holds where `p`, run from `s`, comes to an end, if it does, provided
    that the rules guarantee `G`. -/
def wlp (G : Outcomes) : {α : Type} → Parser α → (α → State → Prop) → State → Prop
  | _, .done a, Q, s => Q a s
  | _, .look next, Q, s => wlp G (next s.view) Q s
  | _, .consume next, Q, s => wlp G next Q s.consume
  | _, .complain p next, Q, s => wlp G next Q (s.complain p)
  | _, .group adopt body next, Q, s =>
    wlp G body (fun r t => wlp G (next r.1) Q (t.finish s adopt r.2)) (s.start adopt)
  | _, .directive body next, Q, s =>
    wlp G body (fun b t => wlp G (next b) Q (t.withDirectives s.view.directives))
      (s.withDirectives (s.view.directives + 1))
  | _, .call r next, Q, s => ∀ b t, G r s b t → wlp G (next b) Q t
  | _, .loop round init next, Q, s =>
    ∃ I : _ → State → Prop, I init s ∧ ∀ a t, I a t →
      wlp G (round a) (fun step u =>
        match step with
        | .again b => I b u
        | .stop b => wlp G (next b) Q u) t

variable {G : Outcomes}

/-- What always holds need not be traced. -/
theorem wlp_of_forall {p : Parser α} {Q : α → State → Prop} (h : ∀ a t, Q a t) (s : State) :
    wlp G p Q s := by
  induction p generalizing s with
  | done a => exact h a s
  | look next ih => exact ih _ h s
  | consume next ih => exact ih h s.consume
  | complain p next ih => exact ih h (s.complain p)
  | group adopt body next ihb ihn => exact ihb (fun r t => ihn _ h _) _
  | directive body next ihb ihn => exact ihb (fun b t => ihn _ h _) _
  | call r next ih => exact fun b t _ => ih b h t
  | loop round init next ihr ihn =>
    refine ⟨fun _ _ => True, trivial, fun a t _ => ihr a (fun step u => ?_) t⟩
    cases step with
    | again b => exact trivial
    | stop b => exact ihn b h u

theorem wlp_mono {p : Parser α} {Q Q' : α → State → Prop} {s : State}
    (hQ : ∀ a t, Q a t → Q' a t) (h : wlp G p Q s) : wlp G p Q' s := by
  induction p generalizing s with
  | done a => exact hQ _ _ h
  | look next ih => exact ih _ hQ h
  | consume next ih => exact ih hQ h
  | complain p next ih => exact ih hQ h
  | group adopt body next ihb ihn => exact ihb (fun r t ht => ihn _ hQ ht) h
  | directive body next ihb ihn => exact ihb (fun b t ht => ihn _ hQ ht) h
  | call r next ih => exact fun b t hr => ih b hQ (h b t hr)
  | loop round init next ihr ihn =>
    obtain ⟨I, hinit, hround⟩ := h
    refine ⟨I, hinit, fun a t ht => ihr _ (fun step u hu => ?_) (hround a t ht)⟩
    cases step with
    | again b => exact hu
    | stop b => exact ihn _ hQ hu

/-- Sequencing. -/
theorem wlp_andThen {p : Parser α} {f : α → Parser β} {Q : β → State → Prop} {s : State}
    (h : wlp G p (fun a t => wlp G (f a) Q t) s) : wlp G (p.andThen f) Q s := by
  induction p generalizing s with
  | done a => exact h
  | look next ih => exact ih _ h
  | consume next ih => exact ih h
  | complain p next ih => exact ih h
  | group adopt body next _ ihn =>
    rw [andThen, wlp]
    exact wlp_mono (fun r t ht => ihn _ ht) h
  | directive body next _ ihn =>
    rw [andThen, wlp]
    exact wlp_mono (fun b t ht => ihn _ ht) h
  | call r next ih => exact fun b t hr => ih b (h b t hr)
  | loop round init next _ ihn =>
    obtain ⟨I, hinit, hround⟩ := h
    refine ⟨I, hinit, fun a t ht => wlp_mono (fun step u hu => ?_) (hround a t ht)⟩
    cases step with
    | again b => exact hu
    | stop b => exact ihn _ hu

/-- What a program brings about wherever it ends adds to what is known of its end. -/
theorem wp_and_wlp {p : Parser α} {Q Q' : α → State → Prop} {s : State} (h : wp C p Q s)
    (h' : wlp anything p Q' s) : wp C p (fun a t => Q a t ∧ Q' a t) s := by
  induction p generalizing s with
  | done a => exact ⟨h, h'⟩
  | look next ih => exact ih _ h h'
  | consume next ih => exact ih h h'
  | complain p next ih => exact ih h h'
  | group adopt body next ihb ihn =>
    rw [wp]
    exact wp_mono (fun r t ht => ihn _ ht.1 ht.2) (ihb h h')
  | directive body next ihb ihn =>
    rw [wp]
    exact wp_mono (fun b t ht => ihn _ ht.1 ht.2) (ihb h h')
  | call r next ih => exact ⟨h.1, fun b t ht => ih b (h.2 b t ht) (h' b t trivial)⟩
  | loop round init next ihr ihn =>
    obtain ⟨I, hinit, hround⟩ := h
    obtain ⟨J, hinit', hround'⟩ := h'
    -- the invariants hold together, and the measure is that of `wp`
    refine ⟨fun a t => I a t ∧ J a t, ⟨hinit, hinit'⟩, fun a t ht => ?_⟩
    refine wp_mono (fun step u hu => ?_) (ihr a (hround a t ht.1) (hround' a t ht.2))
    cases step with
    | again b => exact ⟨hu.1.1, hu.1.2, hu.2⟩
    | stop b => exact ihn b hu.1 hu.2

/-- What a program brings about one by one, it brings about together. -/
theorem wlp_forall {ι : Type} {p : Parser α} {Q : ι → α → State → Prop} {s : State}
    (h : ∀ i, wlp G p (Q i) s) : wlp G p (fun a t => ∀ i, Q i a t) s := by
  induction p generalizing s with
  | done a => exact h
  | look next ih => exact ih _ h
  | consume next ih => exact ih h
  | complain p next ih => exact ih h
  | group adopt body next ihb ihn =>
    rw [wlp]
    exact wlp_mono (fun r t ht => ihn _ ht) (ihb h)
  | directive body next ihb ihn =>
    rw [wlp]
    exact wlp_mono (fun b t ht => ihn _ ht) (ihb h)
  | call r next ih => exact fun b t hr => ih b fun i => h i b t hr
  | loop round init next ihr ihn =>
    obtain ⟨I, hI⟩ := Classical.axiomOfChoice h
    -- all invariants hold together
    refine ⟨fun a t => ∀ i, I i a t, fun i => (hI i).1, fun a t ht => ?_⟩
    refine wlp_mono (fun step u hu => ?_) (ihr a fun i => (hI i).2 a t (ht i))
    cases step with
    | again b => exact hu
    | stop b => exact ihn b hu

/-- Two things that a program brings about hold together. -/
theorem wlp_and {p : Parser α} {Q Q' : α → State → Prop} {s : State} (h : wlp G p Q s)
    (h' : wlp G p Q' s) : wlp G p (fun a t => Q a t ∧ Q' a t) s := by
  have hboth : ∀ b : Bool, wlp G p (bif b then Q else Q') s := Bool.forall_bool.mpr ⟨h', h⟩
  exact wlp_mono (fun a t ht => ⟨ht true, ht false⟩) (wlp_forall hboth)

/-- A program that comes to an end where the rules keep a contract does so where they guarantee
    more. -/
theorem wlp_of_wp {p : Parser α} {Q : α → State → Prop} {s : State}
    (hG : ∀ r s b t, C.admits r s → G r s b t → C.ensures r s b t) (h : wp C p Q s) :
    wlp G p Q s := by
  induction p generalizing s with
  | done a => exact h
  | look next ih => exact ih _ h
  | consume next ih => exact ih h
  | complain p next ih => exact ih h
  | group adopt body next ihb ihn =>
    rw [wlp]
    exact wlp_mono (fun r t ht => ihn _ ht) (ihb h)
  | directive body next ihb ihn =>
    rw [wlp]
    exact wlp_mono (fun b t ht => ihn _ ht) (ihb h)
  | call r next ih => exact fun b t hr => ih b (h.2 b t (hG r s b t h.1 hr))
  | loop round init next ihr ihn =>
    obtain ⟨I, hinit, hround⟩ := h
    refine ⟨I, hinit, fun a t ht => wlp_mono (fun step u hu => ?_) (ihr a (hround a t ht))⟩
    cases step with
    | again b => exact hu.2
    | stop b => exact ihn b hu

/-- A run that makes progress ends as the weakest liberal precondition says, if the bodies of all
    rules give what the rules guarantee. -/
theorem Proceeds.of_wlp {body : Rule → Parser Bool} (hrules : ∀ r s, wlp G (body r) (G r s) s)
    {E : List Entry} {p : Parser α} {s t : State} {a : α} (h : Proceeds body E p s a t)
    {Q : α → State → Prop} (hwlp : wlp G p Q s) : Q a t := by
  induction h with
  | done => exact hwlp
  | look _ ih => exact ih hwlp
  | consume _ ih => exact ih hwlp
  | complain _ ih => exact ih hwlp
  | group _ _ ihi ihr => exact ihr (ihi hwlp)
  | directive _ _ ihi ihr => exact ihr (ihi hwlp)
  | call _ _ _ ihi ihr => exact ihr (hwlp _ _ (ihi (hrules _ _)))
  | stop _ _ ihi ihr =>
    obtain ⟨I, hinit, hround⟩ := hwlp
    exact ihr (ihi (hround _ _ hinit))
  | again _ _ _ ihi ihr =>
    obtain ⟨I, hinit, hround⟩ := hwlp
    exact ihr ⟨I, ihi (hround _ _ hinit), hround⟩

/-! ## Operations -/

/-- Sequencing, as `do` writes it. -/
theorem wlp_bind {p : Parser α} {f : α → Parser β} {Q : β → State → Prop} {s : State}
    (h : wlp G p (fun a t => wlp G (f a) Q t) s) : wlp G (p >>= f) Q s :=
  wlp_andThen h

/-- Looking changes nothing. -/
theorem wlp_view_bind {f : View → Parser β} {Q : β → State → Prop} {s : State}
    (h : wlp G (f s.view) Q s) : wlp G (view >>= f) Q s := h

theorem wlp_kind_bind {f : TokenKind → Parser β} {Q : β → State → Prop} {s : State}
    (h : wlp G (f s.view.kind) Q s) : wlp G (kind >>= f) Q s := h

theorem wlp_sees_bind {k : TokenKind} {f : Bool → Parser β} {Q : β → State → Prop} {s : State}
    (h : wlp G (f (s.view.kind == k)) Q s) : wlp G (sees k >>= f) Q s := h

theorem wlp_seesJoined_bind {k : TokenKind} {f : Bool → Parser β} {Q : β → State → Prop}
    {s : State} (h : wlp G (f (s.view.seesJoined k)) Q s) : wlp G (seesJoined k >>= f) Q s := h

theorem wlp_bump {Q : Unit → State → Prop} {s : State} (h : Q () s.consume) : wlp G bump Q s := h

theorem wlp_follow' {r : Rule} {Q : Unit → State → Prop} {s : State}
    (h : ∀ b t, G r s b t → Q () t) : wlp G (follow' r) Q s := h

/-- What is required and seen is consumed. -/
theorem wlp_require {c : TokenKind} {problem : Problem} {Q : Unit → State → Prop} {s : State}
    (h : s.view.kind = c) (hQ : Q () s.consume) : wlp G (require c problem) Q s := by
  show wlp G (Parser.andThen (Parser.andThen
    (if s.view.kind == c then (do bump; pure true) else pure false) _) _) _ s
  rw [if_pos (by simpa using h)]
  exact hQ

/-- Where something else is seen, what is required is reported. -/
theorem wlp_require_not {c : TokenKind} {problem : Problem}
    {Q : Unit → State → Prop} {s : State} (h : s.view.kind ≠ c) (hQ : Q () (s.complain problem)) :
    wlp G (require c problem) Q s := by
  show wlp G (Parser.andThen (Parser.andThen
    (if s.view.kind == c then (do bump; pure true) else pure false) _) _) _ s
  rw [if_neg (by simpa using h)]
  exact hQ

/-- What holds between the rounds of a repetition, and what the last one brings about. -/
theorem wlp_repeating {body : Parser Bool} {I Q : State → Prop} {s : State}
    (hs : I s) (h : ∀ t, I t → wlp G body (fun b u => if b then I u else Q u) t) :
    wlp G (repeating body) (fun _ => Q) s := by
  refine ⟨fun _ => I, hs, fun _ t ht => wlp_andThen (wlp_mono (fun b u hu => ?_) (h t ht))⟩
  cases b with
  | true => exact hu
  | false => exact hu

/-! ## What programs keep -/

/-- Wherever they end, the nodes and rules that `F` admits bring the relation about, provided that
    the rules guarantee `G`. -/
structure Kept.Permits (K : Kept) (G : Outcomes) (F : Forms) : Prop where
  node : ∀ {α : Type} {adopt : Bool} {k : NodeKind} {body : Parser α} {s : State},
    F.node adopt k body → wlp G body (fun _ t => K.rel (s.start adopt) t) (s.start adopt) →
      wlp G body (fun _ t => K.rel s (t.finish s adopt (some k))) (s.start adopt)
  rule : ∀ {r : Rule}, F.rule r → ∀ s b t, G r s b t → K.rel s t

/-- Wherever it ends, a program that does nothing but what is permitted keeps the relation. -/
theorem Kept.Permits.keeps {K : Kept} {F : Forms} (hF : K.Permits G F) {p : Parser α} {P : α → Prop}
    (h : Makes F p P) (s : State) : wlp G p (fun a t => K.rel s t ∧ P a) s := by
  induction p generalizing s with
  | done a => exact ⟨K.refl s, h⟩
  | look next ih => exact ih _ (h s.view) s
  | consume next ih =>
    exact wlp_mono (fun _ _ ht => ht.imp_left (K.trans (K.consume s))) (ih h s.consume)
  | complain p next ih =>
    exact wlp_mono (fun _ _ ht => ht.imp_left (K.trans (K.complain s p))) (ih h (s.complain p))
  | group adopt body next ihb ihn =>
    have hbody := ihb h.1 (s.start adopt)
    -- which kind the node has is known only where its body ends
    have hnode : wlp G body (fun _ t => ∀ k, F.node adopt k body →
        K.rel s (t.finish s adopt (some k))) (s.start adopt) := by
      refine wlp_forall fun k => ?_
      by_cases hk : F.node adopt k body
      · exact wlp_mono (fun _ _ ht _ => ht) (hF.node hk (wlp_mono (fun _ _ ht => ht.1) hbody))
      · exact wlp_of_forall (fun _ _ hk' => absurd hk' hk) _
    rw [wlp]
    refine wlp_mono (fun r t ht => ?_) (wlp_and hbody hnode)
    obtain ⟨⟨hkeeps, hkind⟩, hfinish⟩ := ht
    have hrel : K.rel s (t.finish s adopt r.2) := by
      cases hk : r.2 with
      | none => exact K.finish hkeeps nofun
      | some k => exact hfinish k (hkind.2 k hk)
    exact wlp_mono (fun _ _ hu => hu.imp_left (K.trans hrel)) (ihn r.1 (h.2 r.1) _)
  | directive body next ihb ihn =>
    rw [wlp]
    refine wlp_mono (fun b t ht => ?_) (ihb h.1 _)
    exact wlp_mono (fun _ _ hu => hu.imp_left (K.trans (K.withDirectives ht.1))) (ihn b (h.2 b) _)
  | call r next ih =>
    exact fun b t ht =>
      wlp_mono (fun _ _ hu => hu.imp_left (K.trans (hF.rule h.1 s b t ht))) (ih b (h.2 b) t)
  | loop round init next ihr ihn =>
    refine ⟨fun _ t => K.rel s t, K.refl s, fun a t ht => ?_⟩
    refine wlp_mono (fun step u hu => ?_) (ihr a (h.1 a) t)
    cases step with
    | again b => exact K.trans ht hu.1
    | stop b =>
      exact wlp_mono (fun _ _ hw => hw.imp_left (K.trans (K.trans ht hu.1))) (ihn b (h.2 b) u)

/-! ## Where programs end -/

/-- `p` ends in `Q`, wherever it is run from and whatever is known of the rules. -/
def Ends (Q : α → State → Prop) (p : Parser α) : Prop := ∀ G s, wlp G p Q s

variable {Q : α → State → Prop} {S : β → State → Prop}

theorem Ends.pure {a : α} (h : ∀ s, Q a s) : Ends Q (Pure.pure a) := fun _ => h

/-- The last part of a program decides where it ends. -/
theorem Ends.bind {p : Parser α} {f : α → Parser β} (h : ∀ a, Ends S (f a)) :
    Ends S (p >>= f) :=
  fun G s => wlp_andThen (wlp_of_forall (fun a t => h a G t) s)

end Parser

end SwiftOutline
