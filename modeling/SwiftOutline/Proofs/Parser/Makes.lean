/-
  SwiftOutline.Proofs.Parser.Makes

  Which kinds of nodes a program makes by itself, the rules that it follows
  apart. A relation between states that survives all operations but the making
  of some nodes is kept by every program that makes none of these.
-/
import Mathlib.Logic.Unique
import SwiftOutline.Proofs.Parser.Run

namespace SwiftOutline

namespace Parser

/-! ## What a program may do -/

/-- What a program may do by itself: which nodes it may make and which rules it may follow. -/
structure Forms where
  /-- Whether a node of a kind may be made of what `body` produces, and of the element before that
      if `adopt`. -/
  node : {α : Type} → (adopt : Bool) → NodeKind → (body : Parser α) → Prop
  /-- Whether a rule may be followed. -/
  rule : Rule → Prop
  /-- Whether an element may become the first child of a node that is made behind it. -/
  adopts : Prop := True

namespace Forms

/-- Nodes of some kinds may be made, of whatever it is, and all rules followed. -/
def of (ok : NodeKind → Prop) : Forms where
  node _ k _ := ok k
  rule _ := True

/-- No nodes may be made and no rules followed. -/
def bare : Forms where
  node _ _ _ := False
  rule _ := False

/-- All nodes may be made and all rules followed, but no element becomes the child of a node that
    is made behind it. -/
def flat : Forms where
  node _ _ _ := True
  rule _ := True
  adopts := False

instance : Coe (NodeKind → Prop) Forms := ⟨of⟩

@[simp] theorem node_of {α : Type} {ok : NodeKind → Prop} {adopt : Bool} {k : NodeKind}
    {body : Parser α} : (of ok).node adopt k body ↔ ok k := Iff.rfl

@[simp] theorem rule_of {ok : NodeKind → Prop} (r : Rule) : (of ok).rule r := trivial

end Forms

/-- What is needed for nodes that have an element before them as their first child. -/
class Adopts (F : Forms) : Prop where
  adopts : F.adopts

attribute [simp] Adopts.adopts

instance (ok : NodeKind → Prop) : Adopts (.of ok) := ⟨trivial⟩

variable {α β σ : Type} {F : Forms} {P : α → Prop}

/-- `Makes F p P` says that `p` does nothing but what `F` admits and that its result satisfies `P`.
    What a rule, a loop or a group comes to is not traced. -/
def Makes (F : Forms) : {α : Type} → Parser α → (α → Prop) → Prop
  | _, .done a, P => P a
  | _, .look next, P => ∀ v, Makes F (next v) P
  | _, .consume next, P => Makes F next P
  | _, .complain _ next, P => Makes F next P
  | _, .group adopt body next, P =>
    Makes F body (fun r => (adopt = true → F.adopts) ∧ ∀ k, r.2 = some k → F.node adopt k body) ∧
      ∀ b, Makes F (next b) P
  | _, .directive body next, P => Makes F body (fun _ => True) ∧ ∀ b, Makes F (next b) P
  | _, .call r next, P => F.rule r ∧ ∀ b, Makes F (next b) P
  | _, .loop round _ next, P =>
    (∀ a, Makes F (round a) fun _ => True) ∧ ∀ b, Makes F (next b) P

theorem makes_andThen (p : Parser α) (f : α → Parser β) (P : β → Prop) :
    Makes F (p.andThen f) P ↔ Makes F p fun a => Makes F (f a) P := by
  induction p with
  | done a => rfl
  | look next ih => exact forall_congr' fun v => ih v f
  | consume next ih => exact ih f
  | complain p next ih => exact ih f
  | group adopt body next _ ih => exact and_congr_right' (forall_congr' fun b => ih b f)
  | directive body next _ ih => exact and_congr_right' (forall_congr' fun b => ih b f)
  | call r next ih => exact and_congr_right' (forall_congr' fun b => ih b f)
  | loop round init next _ ih => exact and_congr_right' (forall_congr' fun b => ih b f)

@[simp] theorem makes_bind (p : Parser α) (f : α → Parser β) (P : β → Prop) :
    Makes F (p >>= f) P ↔ Makes F p fun a => Makes F (f a) P :=
  makes_andThen p f P

theorem Makes.mono {p : Parser α} {P' : α → Prop} (h : Makes F p P) (hP : ∀ a, P a → P' a) :
    Makes F p P' := by
  induction p with
  | done a => exact hP a h
  | look next ih => exact fun v => ih v (h v) hP
  | consume next ih => exact ih h hP
  | complain p next ih => exact ih h hP
  | group adopt body next _ ih => exact ⟨h.1, fun b => ih b (h.2 b) hP⟩
  | directive body next _ ih => exact ⟨h.1, fun b => ih b (h.2 b) hP⟩
  | call r next ih => exact ⟨h.1, fun b => ih b (h.2 b) hP⟩
  | loop round init next _ ih => exact ⟨h.1, fun b => ih b (h.2 b) hP⟩

theorem Makes.forms_mono {G : Forms} {p : Parser α} (h : Makes F p P)
    (hnode : ∀ {α : Type} {adopt : Bool} {k : NodeKind} {body : Parser α},
      F.node adopt k body → G.node adopt k body)
    (hrule : ∀ r, F.rule r → G.rule r) (hadopts : F.adopts → G.adopts) : Makes G p P := by
  induction p with
  | done a => exact h
  | look next ih => exact fun v => ih v (h v)
  | consume next ih => exact ih h
  | complain p next ih => exact ih h
  | group adopt body next ihb ihn =>
    exact ⟨(ihb h.1).mono fun r hr => ⟨fun ha => hadopts (hr.1 ha), fun k hk => hnode (hr.2 k hk)⟩,
      fun b => ihn b (h.2 b)⟩
  | directive body next ihb ihn => exact ⟨ihb h.1, fun b => ihn b (h.2 b)⟩
  | call r next ih => exact ⟨hrule r h.1, fun b => ih b (h.2 b)⟩
  | loop round init next ihr ihn => exact ⟨fun a => ihr a (h.1 a), fun b => ihn b (h.2 b)⟩

theorem Makes.kinds_mono {ok ok' : NodeKind → Prop} {p : Parser α} (h : Makes ok p P)
    (hok : ∀ k, ok k → ok' k) : Makes ok' p P :=
  h.forms_mono (hok _) (fun _ => id) id

/-- Every program has a result. -/
theorem Makes.exists_result {p : Parser α} (h : Makes F p P) : ∃ a, P a := by
  induction p with
  | done a => exact ⟨a, h⟩
  | look next ih => exact ih default (h default)
  | consume next ih => exact ih h
  | complain p next ih => exact ih h
  | group adopt body next ihb ihn =>
    obtain ⟨r, -⟩ := ihb h.1
    exact ihn r.1 (h.2 r.1)
  | directive body next ihb ihn =>
    obtain ⟨b, -⟩ := ihb h.1
    exact ihn b (h.2 b)
  | call r next ih => exact ih true (h.2 true)
  | loop round init next _ ihn => exact ihn init (h.2 init)

/-- If all kinds and all results are admitted, every program is. -/
theorem makes_of_forall {ok : NodeKind → Prop} (hok : ∀ k, ok k) {p : Parser α} :
    Makes ok p fun _ => True := by
  induction p with
  | done a => trivial
  | look next ih => exact ih
  | consume next ih => exact ih
  | complain p next ih => exact ih
  | group adopt body next ihb ihn =>
    exact ⟨ihb.mono fun _ _ => ⟨fun _ => trivial, fun k _ => hok k⟩, ihn⟩
  | directive body next ihb ihn => exact ⟨ihb, ihn⟩
  | call r next ih => exact ⟨trivial, ih⟩
  | loop round init next ihr ihn => exact ⟨ihr, ihn⟩

/-- A program without a result of its own passes on what is claimed of what follows it. -/
theorem makes_unit_iff {p : Parser Unit} {P : Unit → Prop} (h : Makes F p fun _ => True) :
    Makes F p P ↔ P () :=
  ⟨fun hP => hP.exists_result.elim fun _ => id, fun hP => h.mono fun _ _ => hP⟩

/-! ## Operations -/

@[simp] theorem makes_pure (a : α) : Makes F (pure a) P ↔ P a := Iff.rfl

@[simp] theorem makes_ite (c : Prop) [Decidable c] (p q : Parser α) :
    Makes F (if c then p else q) P ↔ (c → Makes F p P) ∧ (¬ c → Makes F q P) := by
  split <;> simp [*]

@[simp] theorem makes_view (P : View → Prop) : Makes F view P ↔ ∀ v, P v := Iff.rfl

@[simp] theorem makes_kind (P : TokenKind → Prop) : Makes F kind P ↔ ∀ v : View, P v.kind :=
  Iff.rfl

@[simp] theorem makes_sees (k : TokenKind) (P : Bool → Prop) :
    Makes F (sees k) P ↔ ∀ v : View, P (v.kind == k) := Iff.rfl

@[simp] theorem makes_seesJoined (k : TokenKind) (P : Bool → Prop) :
    Makes F (seesJoined k) P ↔ ∀ v : View, P (v.seesJoined k) := Iff.rfl

@[simp] theorem makes_bump (P : Unit → Prop) : Makes F bump P ↔ P () := Iff.rfl

@[simp] theorem makes_report (p : Problem) (P : Unit → Prop) : Makes F (report p) P ↔ P () :=
  Iff.rfl

@[simp] theorem makes_follow (r : Rule) (P : Bool → Prop) :
    Makes F (follow r) P ↔ F.rule r ∧ ∀ b, P b :=
  Iff.rfl

@[simp] theorem makes_follow' (r : Rule) (P : Unit → Prop) :
    Makes F (follow' r) P ↔ F.rule r ∧ P () :=
  and_congr_right' ⟨fun h => h true, fun h _ => h⟩

@[simp] theorem makes_node (k : NodeKind) (p : Parser α) :
    Makes F (node k p) P ↔
      Makes F p (fun _ => F.node false k (do let a ← p; pure (a, some k))) ∧ ∀ a, P a := by
  simp only [node, Makes, makes_andThen, Option.some.injEq, forall_eq', Bool.false_eq_true,
    false_implies, true_and]
  rfl

@[simp] theorem makes_wrap (k : NodeKind) (p : Parser α) :
    Makes F (wrap k p) P ↔
      Makes F p (fun _ => F.adopts ∧ F.node true k (do let a ← p; pure (a, some k))) ∧
        ∀ a, P a := by
  simp only [wrap, Makes, makes_andThen, Option.some.injEq, forall_eq', true_implies]
  rfl

@[simp] theorem makes_node? (p : Parser (Option NodeKind)) (P : Bool → Prop) :
    Makes F (node? p) P ↔
      Makes F p (fun k? => ∀ k, k? = some k →
        F.node false k (do let k? ← p; pure (k?.isSome, k?))) ∧ ∀ b, P b := by
  simp only [node?, Makes, makes_andThen, Bool.false_eq_true, false_implies, true_and]
  rfl

@[simp] theorem makes_inDirective (p : Parser α) :
    Makes F (inDirective p) P ↔ Makes F p (fun _ => True) ∧ ∀ a, P a := Iff.rfl

@[simp] theorem makes_repeating (body : Parser Bool) (P : Unit → Prop) :
    Makes F (repeating body) P ↔ Makes F body (fun _ => True) ∧ P () := by
  simp [repeating, Makes, makes_andThen, Unique.forall_iff]

/-! ## Combinators -/

@[simp] theorem makes_eat (k : TokenKind) (P : Bool → Prop) :
    Makes F (eat k) P ↔ ∀ v : View, P (v.kind == k) := by
  simp only [eat, makes_bind, makes_sees]
  refine forall_congr' fun v => ?_
  cases v.kind == k <;> simp

@[simp] theorem makes_expect (k : TokenKind) (p : Problem) (P : Bool → Prop) :
    Makes F (expect k p) P ↔ ∀ v : View, P (v.kind == k) := by
  simp only [expect, makes_bind, makes_eat]
  refine forall_congr' fun v => ?_
  cases v.kind == k <;> simp

@[simp] theorem makes_require (k : TokenKind) (p : Problem) (P : Unit → Prop) :
    Makes F (require k p) P ↔ P () := by
  simp [require]

@[simp] theorem makes_separated (element : Parser Bool) (P : Unit → Prop) :
    Makes F (separated element) P ↔ Makes F element (fun _ => True) ∧ P () := by
  simp [separated]

@[simp] theorem makes_bumpBalanced (P : Unit → Prop) : Makes F bumpBalanced P ↔ P () :=
  makes_unit_iff (by simp [bumpBalanced, Makes, bumpInside])

@[simp] theorem makes_separatedUntil {closer : TokenKind} {element : Parser Bool}
    {P : Unit → Prop} (h : Makes F element fun _ => True) :
    Makes F (separatedUntil closer element) P ↔ P () :=
  makes_unit_iff (by simp [separatedUntil, h])

@[simp] theorem makes_recover {p : Problem} {P : Unit → Prop}
    (h : ∀ {α : Type} (p : Parser α), F.node false .unexpected p) :
    Makes F (recover p) P ↔ P () :=
  makes_unit_iff (by simp [recover, h])

/-! ## What such programs keep -/

/-- A relation between the states before and behind a program which all operations bring about,
    provided that the nodes are of kinds that `free` admits. -/
structure Kept where
  rel : State → State → Prop
  free : NodeKind → Prop
  refl : ∀ s, rel s s
  trans : ∀ {s t u}, rel s t → rel t u → rel s u
  consume : ∀ s, rel s s.consume
  complain : ∀ s p, rel s (s.complain p)
  finish : ∀ {s t adopt k?}, rel (s.start adopt) t → (∀ k, k? = some k → free k) →
    rel s (t.finish s adopt k?)
  withDirectives : ∀ {s t m n}, rel (s.withDirectives m) t → rel s (t.withDirectives n)

variable {K : Kept} {call : Rule → State → Bool × State}

/-- Wherever it is run from, `p` brings the relation about. -/
def Kept.By (K : Kept) (call : Rule → State → Bool × State) (p : Parser α) : Prop :=
  ∀ s, K.rel s (p.run call s).2

namespace Kept

variable {p q : Parser α} {f : α → Parser β}

theorem By.pure {a : α} : K.By call (pure a) := K.refl

theorem By.bind (hp : K.By call p) (hf : ∀ a, K.By call (f a)) : K.By call (p >>= f) := by
  intro s
  rw [run_bind]
  exact K.trans (hp s) (hf _ _)

theorem By.ite {c : Prop} [Decidable c] (hp : K.By call p) (hq : K.By call q) :
    K.By call (if c then p else q) := by
  split
  · exact hp
  · exact hq

theorem By.node {k : NodeKind} (hk : K.free k) (hp : K.By call p) : K.By call (node k p) := by
  intro s
  rw [run_node]
  exact K.finish (hp _) fun _ h => Option.some.inj h ▸ hk

theorem By.wrap {k : NodeKind} (hk : K.free k) (hp : K.By call p) : K.By call (wrap k p) := by
  intro s
  rw [run_wrap]
  exact K.finish (hp _) fun _ h => Option.some.inj h ▸ hk

theorem By.inDirective (hp : K.By call p) : K.By call (inDirective p) :=
  fun _ => K.withDirectives (hp _)

theorem By.repeating {body : Parser Bool} (hbody : K.By call body) :
    K.By call (repeating body) := by
  intro s
  rw [run_repeating]
  exact of_roundsOf (I := fun t => K.rel s t) (J := fun t => K.rel s t)
    (fun t ht => K.trans ht (hbody t)) (fun _ ht => ht) s.left (K.refl s)

end Kept

theorem rel_runRounds {round : σ → State → Step σ × State}
    (h : ∀ a s, K.rel s (round a s).2) (n : Nat) (a : σ) (s : State) :
    K.rel s (runRounds round n a s).2 := by
  induction n generalizing a s with
  | zero => exact K.refl s
  | succ n ih =>
    have hround := h a s
    rw [runRounds]
    split
    · next hr => simpa [hr] using hround
    · next hr =>
      rw [hr] at hround
      exact K.trans hround (ih _ _)

/-- The nodes and rules that `F` admits bring the relation about. -/
structure Kept.Allows (K : Kept) (call : Rule → State → Bool × State) (F : Forms) : Prop where
  node : ∀ {α : Type} {adopt : Bool} {k : NodeKind} {body : Parser α} {s : State},
    F.node adopt k body → K.rel (s.start adopt) (body.run call (s.start adopt)).2 →
      K.rel s ((body.run call (s.start adopt)).2.finish s adopt (some k))
  rule : ∀ {r : Rule}, F.rule r → ∀ s, K.rel s (call r s).2

/-- Where all rules bring the relation about, nodes of free kinds are allowed. -/
theorem Kept.allows (hcall : ∀ r s, K.rel s (call r s).2) : K.Allows call K.free where
  node hk h := K.finish h fun _ hk' => Option.some.inj hk' ▸ hk
  rule _ := hcall _

/-- A program that does nothing but what is allowed keeps the relation. -/
theorem Kept.Allows.run (hF : K.Allows call F) {p : Parser α} {P : α → Prop} (h : Makes F p P)
    (s : State) : K.rel s (p.run call s).2 ∧ P (p.run call s).1 := by
  induction p generalizing s with
  | done a => exact ⟨K.refl s, h⟩
  | look next ih => exact ih _ (h s.view) s
  | consume next ih => exact (ih h s.consume).imp_left (K.trans (K.consume s))
  | complain p next ih => exact (ih h (s.complain p)).imp_left (K.trans (K.complain s p))
  | group adopt body next ihb ihn =>
    obtain ⟨hbody, hkind⟩ := ihb h.1 (s.start adopt)
    refine (ihn _ (h.2 _) _).imp_left (K.trans ?_)
    cases hk : (body.run call (s.start adopt)).1.2 with
    | none => exact K.finish hbody nofun
    | some k => exact hF.node (hkind.2 k hk) hbody
  | directive body next ihb ihn =>
    have hbody := ihb h.1 (s.withDirectives (s.view.directives + 1))
    exact (ihn _ (h.2 _) _).imp_left (K.trans (K.withDirectives hbody.1))
  | call r next ih => exact (ih _ (h.2 _) _).imp_left (K.trans (hF.rule h.1 s))
  | loop round init next ihr ihn =>
    have hrounds : K.rel s (runRounds (fun a s => (round a).run call s)
        (s.view.lexemes.length + 1) init s).2 :=
      rel_runRounds (fun a t => (ihr a (h.1 a) t).1) _ init s
    exact (ihn _ (h.2 _) _).imp_left (K.trans hrounds)

theorem Kept.Allows.by (hF : K.Allows call F) {p : Parser α} {P : α → Prop} (h : Makes F p P) :
    K.By call p :=
  fun s => (hF.run h s).1

/-- A program that makes free kinds of nodes only keeps the relation, if the rules do. -/
theorem Makes.run (hcall : ∀ r s, K.rel s (call r s).2) {p : Parser α} {P : α → Prop}
    (h : Makes K.free p P) (s : State) :
    K.rel s (p.run call s).2 ∧ P (p.run call s).1 :=
  (K.allows hcall).run h s

theorem Makes.by (hcall : ∀ r s, K.rel s (call r s).2) {p : Parser α} {P : α → Prop}
    (h : Makes K.free p P) : K.By call p :=
  (K.allows hcall).by h

end Parser

end SwiftOutline
