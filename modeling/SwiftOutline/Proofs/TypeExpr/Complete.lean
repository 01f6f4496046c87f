/-
  SwiftOutline.Proofs.TypeExpr.Complete

  The parser of types is complete: on a type expression that the grammar derives
  it reports nothing, consumes just the lexemes of the expression, and builds the
  tree of the derivation.
-/
import SwiftOutline.Proofs.Progress.Termination
import SwiftOutline.Proofs.TypeExpr.Prefix

namespace SwiftOutline

namespace Grammar

open SwiftOutline.Parser
open Lexeme (leaf)

variable {o a c d e l m n w : Lexeme} {ls ms ns rest : List Lexeme} {t u : Tree}
  {ts us vs : List Tree}

/-! ## What follows -/

/-- What stands behind a type does not continue it. -/
def Stops (rest : List Lexeme) : Prop :=
  ∀ l ∈ rest.head?,
    l.kind ∉ [TokenKind.question, .exclamation, .dot, .lt, .amp, .arrow] ∧ ¬ l.IsEffect

/-- What stands behind a type without marks continues neither its name nor, if it is a tuple, makes
    a function of it. -/
structure EndsOperand (rest : List Lexeme) : Prop where
  angle : Lookahead.seesJoined .lt rest = false
  member : atMember rest = false
  tail : Lookahead.atFunctionTail rest = false

theorem seesJoined_of_headKind {k : TokenKind} (h : Lookahead.headKind ls ≠ k) :
    Lookahead.seesJoined k ls = false := by
  cases ls with
  | nil => rfl
  | cons l ls => simp_all [Lookahead.seesJoined]

theorem atMember_of_headKind (h : Lookahead.headKind ls ≠ .dot) : atMember ls = false := by
  simp [atMember, h]

namespace Stops

theorem of_headKind {k : TokenKind} (h : Lookahead.headKind rest = k)
    (hk : k ∉ [TokenKind.question, .exclamation, .dot, .lt, .amp, .arrow, .ident, .kwThrows,
      .kwRethrows]) : Stops rest := by
  intro l hl
  cases rest with
  | nil => cases hl
  | cons m rest =>
    obtain rfl : m = l := by simpa using hl
    obtain rfl : m.kind = k := h
    refine ⟨fun hmem => hk (by simp_all), fun heffect => hk ?_⟩
    rcases heffect with h | h | h | h
    · simp [h.1]
    · simp [h.1]
    · simp [h]
    · simp [h]

theorem headKind_ne (h : Stops rest) {k : TokenKind}
    (hk : k ∈ [TokenKind.question, .exclamation, .dot, .lt, .amp, .arrow]) :
    Lookahead.headKind rest ≠ k := by
  cases rest with
  | nil =>
    rintro rfl
    exact absurd hk (by decide)
  | cons l rest =>
    rintro rfl
    exact (h l rfl).1 hk

theorem atEffect (h : Stops rest) : Lookahead.atEffect rest = false := by
  cases rest with
  | nil => rfl
  | cons l rest =>
    have hl : ¬l.IsEffect := (h l rfl).2
    exact Bool.eq_false_iff.mpr fun he => hl (Lexeme.atEffect_iff.mp he)

theorem endsOperand (h : Stops rest) : EndsOperand rest where
  angle := seesJoined_of_headKind (h.headKind_ne (by decide))
  member := atMember_of_headKind (h.headKind_ne (by decide))
  tail := Lookahead.atFunctionTail_of_not h.atEffect (h.headKind_ne (by decide))

theorem reads_typeSuffix (h : Stops rest) : Reads typeSuffix false ⟨rest, ts⟩ ⟨rest, ts⟩ :=
  reads_typeSuffix_none (h.headKind_ne (by decide)) (h.headKind_ne (by decide))
    (h.headKind_ne (by decide))

end Stops

/-- A mark or an `&` ends what it follows. -/
theorem endsOperand_of_headKind {k : TokenKind} (h : Lookahead.headKind rest = k)
    (hk : k ∈ [TokenKind.question, .exclamation, .amp]) : EndsOperand rest := by
  have hne : ∀ k' : TokenKind, k' ∉ [TokenKind.question, .exclamation, .amp] →
      Lookahead.headKind rest ≠ k' := by
    intro k' hk' heq
    rw [← h, heq] at hk
    exact hk' hk
  have heffect : Lookahead.atEffect rest = false := by
    cases rest with
    | nil => rfl
    | cons l rest =>
      have hident : l.kind ≠ .ident := hne _ (by decide)
      have hthrows : l.kind ≠ .kwThrows := hne _ (by decide)
      have hrethrows : l.kind ≠ .kwRethrows := hne _ (by decide)
      simp [Lookahead.atEffect, Lookahead.atThrows, Lookahead.spells, hident, hthrows, hrethrows]
  exact {
    angle := seesJoined_of_headKind (hne _ (by decide))
    member := atMember_of_headKind (hne _ (by decide))
    tail := Lookahead.atFunctionTail_of_not heffect (hne _ (by decide)) }

theorem endsOperand_metatype (dot : d.kind = .dot) (word : w.Spells "Type" ∨ w.Spells "Protocol") :
    EndsOperand (d :: w :: rest) where
  angle := seesJoined_of_headKind (by simp [dot])
  member := by rcases word with h | h <;> simp [atMember, Lookahead.spells, h.1, h.2]
  tail := by
    refine Lookahead.atFunctionTail_of_not ?_ (by simp [dot])
    simp [Lookahead.atEffect, Lookahead.atThrows, Lookahead.spells, dot]

/-! ## Phrases -/

/-- The parser of a part. -/
def Part.parser : Part → Parser Bool
  | .genericArgument => node .genericArgument (follow .type)
  | .tupleElement => tupleTypeElement
  | .attributeArgument => do
    Grammar.attributeArgument
    pure true

/-- The bracket that ends a list of parts. -/
def Part.closer : Part → TokenKind
  | .genericArgument => .gt
  | .tupleElement | .attributeArgument => .rParen

/-- The parser makes the trees `ts` of the phrase `ls`, where what follows allows it. -/
def Phrase.IsRead : Phrase → List Lexeme → List Tree → Prop
  | .type, ls, ts | .specified, ls, ts | .bare, ls, ts =>
    ∀ rest, Stops rest → Reads typeExpr true ⟨ls ++ rest, []⟩ ⟨rest, ts⟩
  | .composition, ls, ts =>
    ∀ rest, Stops rest → Reads compositionType true ⟨ls ++ rest, []⟩ ⟨rest, ts⟩
  | .operands, ls, ts =>
    ∀ rest, Stops rest → ReadsMany joinedType ⟨ls ++ rest, []⟩ ⟨rest, ts⟩
  | .operand true, ls, ts =>
    ∀ rest, Stops rest → Reads postfixType true ⟨ls ++ rest, []⟩ ⟨rest, ts⟩
  | .operand false, ls, ts =>
    -- the marks are read after the rest, one by one
    ∀ rest, EndsOperand rest → ∃ x, Reads primaryType true ⟨ls ++ rest, []⟩ x ∧
      (Lookahead.headKind ls = .lParen → Lookahead.atFunctionTail x.lexemes = false) ∧
      ReadsMany typeSuffix x ⟨rest, ts⟩
  | .tuple, ls, ts => ∀ rest, Reads tupleType () ⟨ls ++ rest, []⟩ ⟨rest, ts⟩
  | .element, ls, ts =>
    ∀ rest, Lookahead.headKind rest ∈ [TokenKind.comma, .rParen, .ellipsis] →
      ∃ x, Reads labels () ⟨ls ++ rest, []⟩ x ∧ Reads (follow .type) true x ⟨rest, ts⟩
  | .name, ls, ts =>
    ∀ rest, Lookahead.seesJoined .lt rest = false → atMember rest = false →
      Reads simpleType () ⟨ls ++ rest, []⟩ ⟨rest, [.node .simpleType ts]⟩
  | .members, ls, ts =>
    ∀ rest, Lookahead.seesJoined .lt rest = false →
      ReadsMany nameMember ⟨ls ++ rest, []⟩ ⟨rest, ts⟩
  | .arguments, ls, ts =>
    ∀ rest, Lookahead.seesJoined .lt rest = false →
      Reads joinedGenericArguments () ⟨ls ++ rest, []⟩ ⟨rest, ts⟩
  | .part p, ls, ts =>
    ∀ rest, Lookahead.headKind rest = .comma ∨ Lookahead.headKind rest = p.closer →
      Reads p.parser true ⟨ls ++ rest, []⟩ ⟨rest, ts⟩
  | .parts p, ls, ts =>
    ∀ rest, Lookahead.headKind rest = p.closer →
      ReadsAll (separatedRound p.closer p.parser) ⟨ls ++ rest, []⟩ ⟨rest, ts⟩
  | .effects, ls, ts | .effect, ls, ts =>
    ∀ rest, Lookahead.seesJoined .lParen rest = false →
      ReadsMany effectRound ⟨ls ++ rest, []⟩ ⟨rest, ts⟩
  | .specifiers, ls, ts =>
    ∀ rest, beginsType (Lookahead.headKind rest) = true ∨ Lookahead.headKind rest = .atSign →
      ReadsMany typeSpecifier ⟨ls ++ rest, []⟩ ⟨rest, ts⟩
  | .attributes applied, ls, ts =>
    ∀ rest, Lookahead.seesJoined .lt rest = false → Lookahead.headKind rest ≠ .dot →
      (applied = false → Lookahead.seesJoined .lParen rest = false) →
      ReadsMany nextAttribute ⟨ls ++ rest, []⟩ ⟨rest, ts⟩
  | .path, ls, ts => ∀ rest, ReadsMany attributeMember ⟨ls ++ rest, []⟩ ⟨rest, ts⟩
  | .application applied, ls, ts =>
    ∀ rest, (applied = false → Lookahead.seesJoined .lParen rest = false) →
      Reads joinedAttributeArguments () ⟨ls ++ rest, []⟩ ⟨rest, ts⟩

/-! ### Prefixes -/

/-- The first of some specifiers is taken for one, whatever it is followed by. -/
theorem specifier_of_derives (h : Derives true .specifiers (l :: ls) ts) (rest : List Lexeme)
    (hrest : beginsType (Lookahead.headKind rest) = true ∨ Lookahead.headKind rest = .atSign) :
    l.IsSpecifier ∧ (l.kind = .ident →
      beginsType (Lookahead.headKind (ls ++ rest)) = true ∨
        Lookahead.headKind (ls ++ rest) = .atSign) := by
  cases h with
  | specifier h => exact ⟨h, fun _ => hrest⟩
  | @specifiers l m ls _ first more order =>
    refine ⟨first, fun hl => .inl ?_⟩
    obtain ⟨_, _, heq, hm⟩ := more.fronts.exists_cons rfl
    obtain ⟨rfl, rfl⟩ := List.cons.inj heq
    rcases hm with hm | ⟨hm, -⟩
    · exact absurd hm (order rfl hl)
    · simp [hm, beginsType]

/-- All specifiers in front of something else are read. -/
theorem reads_specifiers (ih : Phrase.specifiers.IsRead ls us) (hl : ¬ l.IsSpecifier)
    (hrest : beginsType l.kind = true ∨ l.kind = .atSign) :
    Reads (repeating typeSpecifier) () ⟨ls ++ l :: rest, []⟩ ⟨l :: rest, us⟩ :=
  Reads.repeating (ih (l :: rest) hrest) (reads_typeSpecifier_none hl)

/-- All attributes in front of a type are read. -/
theorem reads_attributes_of_isRead {applied : Bool} (h : Derives true (.attributes applied) ls us)
    (ih : (Phrase.attributes applied).IsRead ls us) (hl : l.BeginsBare ∨ l.IsSpecifier)
    (apart : applied = false → Lookahead.seesJoined .lParen (l :: ms) = false) :
    Reads attributes () ⟨ls ++ l :: (ms ++ rest), ts⟩
      ⟨l :: (ms ++ rest), ts ++ [Tree.node .attributeList us]⟩ := by
  have hmem : l.kind ∈ [TokenKind.ident, .kwCapitalSelf, .lBracket, .lParen, .kwInout] := by
    rcases hl with hl | hl | hl
    · exact List.mem_append_left [TokenKind.kwInout] hl.kind_mem
    · simp [hl]
    · simp [hl.1]
  have hne : ∀ k ∈ [TokenKind.lt, .dot, .atSign], l.kind ≠ k := by
    rintro k hk rfl
    revert hk hmem
    cases l.kind <;> decide
  obtain ⟨a, tail, rfl, ha⟩ := h.fronts.exists_cons rfl
  refine reads_attributes ha (ih _ ?_ ?_ apart) ?_
  · exact seesJoined_of_headKind (hne _ (by decide))
  · exact hne _ (by decide)
  · exact hne _ (by decide)

theorem isRead_attributed {applied : Bool} (front : Derives true (.attributes applied) ls us)
    (inner : Derives true .specified ms [t])
    (apart : applied = false → Lookahead.seesJoined .lParen ms = false)
    (ihfront : (Phrase.attributes applied).IsRead ls us) (ihinner : Phrase.specified.IsRead ms [t]) :
    Phrase.type.IsRead (ls ++ ms) [.node .attributedType [.node .attributeList us, t]] := by
  intro rest hrest
  obtain ⟨a, as, rfl, ha⟩ := front.fronts.exists_cons rfl
  obtain ⟨l, tail, rfl, hl⟩ := inner.fronts.exists_cons rfl
  have hspecifier : ¬ a.IsSpecifier := Lexeme.not_isSpecifier_of_atSign ha
  rw [List.append_assoc]
  refine reads_typeExpr_prefixed ?_ (Reads.repeating_not (reads_typeSpecifier_none hspecifier))
    (reads_attributes_of_isRead front ihfront hl apart) (ihinner rest hrest)
  intro v hv
  have hat : a.kind = .atSign := ha
  rw [View.kind_eq, hv]
  simp [hat]

theorem isRead_specified (front : Derives true .specifiers ls us)
    (inner : Derives true .bare ms [t]) (ihfront : Phrase.specifiers.IsRead ls us)
    (ihinner : Phrase.bare.IsRead ms [t]) :
    Phrase.specified.IsRead (ls ++ ms) [.node .attributedType (us ++ [t])] := by
  intro rest hrest
  obtain ⟨s, ss, rfl, -⟩ := front.fronts.exists_cons rfl
  obtain ⟨l, tail, rfl, hl⟩ := inner.fronts.exists_cons rfl
  have hbegins : beginsType l.kind = true := beginsType_of_beginsBare hl
  have hnext := specifier_of_derives front (l :: (tail ++ rest)) (.inl hbegins)
  rw [List.append_assoc]
  refine reads_typeExpr_prefixed ?_ (reads_specifiers ihfront hl.not_isSpecifier (.inl hbegins))
    (reads_attributes_none ?_) (ihinner rest hrest)
  · intro v hv
    rw [atTypeSpecifier_of_isSpecifier hv hnext.1 hnext.2]
    rfl
  · intro hk
    rw [Lookahead.headKind_cons] at hk
    rw [hk] at hbegins
    cases hbegins

theorem isRead_specifiedAttributed {applied : Bool} (front : Derives true .specifiers ls us)
    (middle : Derives true (.attributes applied) ms vs) (inner : Derives true .specified ns [t])
    (apart : applied = false → Lookahead.seesJoined .lParen ns = false)
    (ihfront : Phrase.specifiers.IsRead ls us)
    (ihmiddle : (Phrase.attributes applied).IsRead ms vs)
    (ihinner : Phrase.specified.IsRead ns [t]) :
    Phrase.specified.IsRead (ls ++ (ms ++ ns))
      [.node .attributedType (us ++ [Tree.node .attributeList vs, t])] := by
  intro rest hrest
  obtain ⟨s, ss, rfl, -⟩ := front.fronts.exists_cons rfl
  obtain ⟨a, as, rfl, ha⟩ := middle.fronts.exists_cons rfl
  obtain ⟨l, tail, rfl, hl⟩ := inner.fronts.exists_cons rfl
  have hspecifier : ¬ a.IsSpecifier := Lexeme.not_isSpecifier_of_atSign ha
  have hnext := specifier_of_derives front (a :: (as ++ l :: (tail ++ rest))) (.inr ha)
  have hlist : s :: ss ++ (a :: as ++ l :: tail) ++ rest =
      s :: ss ++ a :: (as ++ l :: (tail ++ rest)) := by simp
  have htrees : us ++ [Tree.node .attributeList vs, t] =
      us ++ [Tree.node .attributeList vs] ++ [t] := by simp
  rw [hlist, htrees]
  refine reads_typeExpr_prefixed ?_ (reads_specifiers ihfront hspecifier (.inr ha))
    (reads_attributes_of_isRead middle ihmiddle hl apart) (ihinner rest hrest)
  intro v hv
  rw [atTypeSpecifier_of_isSpecifier hv hnext.1 hnext.2]
  rfl

theorem isRead_specifiers (first : l.IsSpecifier) (more : Derives true .specifiers (m :: ls) us)
    (order : l.kind = .ident → m.kind ≠ .kwInout) (ih : Phrase.specifiers.IsRead (m :: ls) us) :
    Phrase.specifiers.IsRead (l :: m :: ls) (l.leaf :: us) := by
  intro rest hrest
  have hnext := specifier_of_derives (.specifiers first more fun _ => order) rest hrest
  exact (ReadsMany.single (readsOn_typeSpecifier first hnext.2)).trans
    ((ih rest hrest).onto [l.leaf])

/-! ### Attributes -/

/-- In front of what does not continue them, attributes are followed by nothing that does. -/
theorem isRead_oneAttribute {applied : Bool} {ws : List Tree} (sign : a.kind = .atSign)
    (name : n.kind.isNameLike = true) (arguments : Derives true .arguments ms vs)
    (application : Derives true (.application applied) ns ws) (ihpath : Phrase.path.IsRead ls us)
    (iharguments : Phrase.arguments.IsRead ms vs)
    (ihapplication : (Phrase.application applied).IsRead ns ws) :
    (Phrase.attributes applied).IsRead (a :: n :: (ls ++ (ms ++ ns)))
      [.node .attributeUse (a.leaf :: n.leaf :: (us ++ (vs ++ ws)))] := by
  intro rest hangle hdot hparen
  have hns : Lookahead.seesJoined .lt (ns ++ rest) = false ∧
      Lookahead.headKind (ns ++ rest) ≠ .dot := by
    cases application.fronts with
    | nil _ => exact ⟨hangle, hdot⟩
    | cons hk =>
      have hkind : _ = TokenKind.lParen := hk
      exact ⟨seesJoined_of_headKind (by simp [hkind]), by simp [hkind]⟩
  have hms : Lookahead.headKind (ms ++ (ns ++ rest)) ≠ .dot := by
    cases arguments.fronts with
    | nil _ => exact hns.2
    | cons hk =>
      have hkind : _ = TokenKind.lt := hk
      simp [hkind]
  have hlist : a :: n :: (ls ++ (ms ++ ns)) ++ rest = a :: n :: (ls ++ (ms ++ (ns ++ rest))) := by
    simp
  rw [hlist]
  exact ReadsMany.single (readsOn_nextAttribute sign name (ihpath _) hms
    (iharguments _ hns.1) (ihapplication rest hparen)
    (by simp only [List.length_append]; omega))

theorem isRead_attributes {first last : Bool} (more : Derives true (.attributes last) ms vs)
    (ihhead : (Phrase.attributes first).IsRead ls us)
    (ihmore : (Phrase.attributes last).IsRead ms vs) :
    (Phrase.attributes last).IsRead (ls ++ ms) (us ++ vs) := by
  intro rest hangle hdot hparen
  have hhead : ∀ k : TokenKind, k ≠ .atSign → Lookahead.headKind (ms ++ rest) ≠ k := by
    obtain ⟨a, as, rfl, ha⟩ := more.fronts.exists_cons rfl
    have hkind : a.kind = .atSign := ha
    intro k hk heq
    rw [List.cons_append, Lookahead.headKind_cons, hkind] at heq
    exact hk heq.symm
  rw [List.append_assoc]
  refine (ihhead (ms ++ rest) ?_ ?_ fun _ => ?_).trans ((ihmore rest hangle hdot hparen).onto us)
  · exact seesJoined_of_headKind (hhead _ (by decide))
  · exact hhead _ (by decide)
  · exact seesJoined_of_headKind (hhead _ (by decide))

/-! ### Parts -/

/-- A part does not begin with the bracket that ends the list. -/
theorem Part.opens_ne {p : Part} (h : (Phrase.part p).Opens l) :
    l.kind ≠ p.closer ∧ l.kind ≠ .eof := by
  have htype : l.BeginsType → l.kind ≠ .gt ∧ l.kind ≠ .rParen ∧ l.kind ≠ .eof := by
    intro h
    have hmem := h.kind_mem
    revert hmem
    cases l.kind <;> decide
  cases p with
  | genericArgument => exact ⟨(htype h).1, (htype h).2.2⟩
  | tupleElement =>
    rcases h with h | h
    · have hplain := (Lexeme.isWord_of_isArgumentLabel h).plain
      refine ⟨fun hk => ?_, hplain.2.2⟩
      have hclose := hplain.2.1
      rw [hk] at hclose
      cases hclose
    · exact (htype h).2
  | attributeArgument =>
    have hclose : l.kind.isCloser = false ∧ l.kind ≠ .eof := by
      rcases h with h | h
      · refine ⟨?_, Lexeme.ne_eof_of_isOpener h⟩
        cases hk : l.kind.isCloser with
        | false => rfl
        | true =>
          rw [Lexeme.isOpener_of_isCloser hk] at h
          cases h
      · exact h.1.2
    refine ⟨fun hk => ?_, hclose.2⟩
    have hcloser := hclose.1
    rw [hk] at hcloser
    cases hcloser

theorem isRead_lastPart {p : Part} (h : Derives true (.part p) ls us)
    (ih : (Phrase.part p).IsRead ls us) : (Phrase.parts p).IsRead ls us := by
  intro rest hrest
  obtain ⟨l, tail, rfl, hl⟩ := h.fronts.exists_cons rfl
  have hne := Part.opens_ne hl
  have hcomma : Lookahead.headKind rest ≠ .comma := by
    rw [hrest]
    cases p <;> decide
  exact .stop (reads_separatedRound_last hne.1 hne.2 (ih rest (.inr hrest)) hcomma)

theorem isRead_moreParts {p : Part} (first : Derives true (.part p) ls us)
    (comma : a.kind = .comma) (ihfirst : (Phrase.part p).IsRead ls us)
    (ihrest : (Phrase.parts p).IsRead ms vs) :
    (Phrase.parts p).IsRead (ls ++ a :: ms) (us ++ a.leaf :: vs) := by
  intro rest hrest
  obtain ⟨l, tail, rfl, hl⟩ := first.fronts.exists_cons rfl
  have hne := Part.opens_ne hl
  have hround : ReadsOn (separatedRound p.closer p.parser) ⟨l :: tail ++ a :: (ms ++ rest), []⟩
      ⟨ms ++ rest, us ++ [a.leaf]⟩ :=
    readsOn_separatedRound hne.1 hne.2 (ihfirst _ (.inl comma)) comma
      (by simp only [List.length_append, List.length_cons]; omega)
  simpa using ReadsAll.again hround ((ihrest rest hrest).onto (us ++ [a.leaf]))

/-! ### Operands -/

/-- A type with its marks, in front of what is none. -/
theorem reads_postfixType_of_isRead (ih : (Phrase.operand false).IsRead ls [t]) (hls : ls ≠ [])
    (hrest : EndsOperand rest)
    (hstop : Reads typeSuffix false ⟨rest, [t]⟩ ⟨rest, [t]⟩) :
    Reads postfixType true ⟨ls ++ rest, []⟩ ⟨rest, [t]⟩ := by
  obtain ⟨x, hprimary, htail, hmarks⟩ := ih rest hrest
  refine reads_postfixType hprimary (fun hk => htail ?_) hmarks hstop
  cases ls with
  | nil => exact absurd rfl hls
  | cons l ls => exact hk

theorem Derives.ne_nil {strict : Bool} {p : Phrase} (h : Derives strict p ls ts)
    (hp : p.mayBeEmpty = false) : ls ≠ [] := by
  obtain ⟨l, tail, rfl, -⟩ := h.fronts.exists_cons hp
  exact List.cons_ne_nil l tail

/-- An operand in front of `&`. -/
theorem reads_postfixType_before_amp (h : Derives true (.operand false) ls [t])
    (ih : (Phrase.operand false).IsRead ls [t]) (hrest : Lookahead.headKind rest = .amp) :
    Reads postfixType true ⟨ls ++ rest, []⟩ ⟨rest, [t]⟩ :=
  reads_postfixType_of_isRead ih (h.ne_nil rfl) (endsOperand_of_headKind hrest (by decide))
    (reads_typeSuffix_none (by simp [hrest]) (by simp [hrest]) (by simp [hrest]))

/-- The last operand. -/
theorem reads_postfixType_last {function : Bool} (h : Derives true (.operand function) ls [t])
    (ih : (Phrase.operand function).IsRead ls [t]) (hrest : Stops rest) :
    Reads postfixType true ⟨ls ++ rest, []⟩ ⟨rest, [t]⟩ := by
  cases function with
  | true => exact ih rest hrest
  | false =>
    exact reads_postfixType_of_isRead ih (h.ne_nil rfl) hrest.endsOperand hrest.reads_typeSuffix

theorem headKind_of_operands (h : Derives true .operands ms us) :
    Lookahead.headKind (ms ++ rest) = .amp := by
  obtain ⟨a, as, rfl, ha⟩ := h.fronts.exists_cons rfl
  exact ha

theorem isRead_single {function : Bool} (h : Derives true (.operand function) ls [t])
    (ih : (Phrase.operand function).IsRead ls [t]) : Phrase.composition.IsRead ls [t] := by
  intro rest hrest
  exact reads_compositionType_single (reads_postfixType_last h ih hrest)
    (hrest.headKind_ne (by decide))

theorem isRead_joined (first : Derives true (.operand false) ls [t])
    (more : Derives true .operands ms us) (ihfirst : (Phrase.operand false).IsRead ls [t])
    (ihmore : Phrase.operands.IsRead ms us) :
    Phrase.composition.IsRead (ls ++ ms) [.node .compositionType (t :: us)] := by
  intro rest hrest
  have hamp : Lookahead.headKind (ms ++ rest) = .amp := headKind_of_operands more
  rw [List.append_assoc]
  exact reads_compositionType (reads_postfixType_before_amp first ihfirst hamp) hamp
    (ihmore rest hrest) (hrest.headKind_ne (by decide))

theorem isRead_lastOperand {function : Bool} (amp : a.kind = .amp)
    (h : Derives true (.operand function) ls [t]) (ih : (Phrase.operand function).IsRead ls [t]) :
    Phrase.operands.IsRead (a :: ls) [a.leaf, t] := by
  intro rest hrest
  have hle : rest.length ≤ (ls ++ rest).length := by simp
  exact ReadsMany.single (readsOn_joinedType amp (reads_postfixType_last h ih hrest) hle)

theorem isRead_moreOperands (amp : a.kind = .amp) (h : Derives true (.operand false) ls [t])
    (more : Derives true .operands ms us) (ih : (Phrase.operand false).IsRead ls [t])
    (ihmore : Phrase.operands.IsRead ms us) :
    Phrase.operands.IsRead (a :: (ls ++ ms)) (a.leaf :: t :: us) := by
  intro rest hrest
  have hamp : Lookahead.headKind (ms ++ rest) = .amp := headKind_of_operands more
  have hround : ReadsOn joinedType ⟨a :: (ls ++ (ms ++ rest)), []⟩ ⟨ms ++ rest, [a.leaf, t]⟩ :=
    readsOn_joinedType amp (reads_postfixType_before_amp h ih hamp)
      (by simp only [List.length_append]; omega)
  have hlist : a :: (ls ++ ms) ++ rest = a :: (ls ++ (ms ++ rest)) := by simp
  rw [hlist]
  exact (ReadsMany.single hround).trans ((ihmore rest hrest).onto [a.leaf, t])

/-- A type that has no marks yet. -/
theorem isRead_primary
    (h : ∀ rest, EndsOperand rest → Reads primaryType true ⟨ls ++ rest, []⟩ ⟨rest, [t]⟩) :
    (Phrase.operand false).IsRead ls [t] :=
  fun rest hrest => ⟨⟨rest, [t]⟩, h rest hrest, fun _ => hrest.tail, ReadsMany.refl⟩

/-- One more mark behind a type. -/
theorem isRead_marked (h : Derives true (.operand false) ls [t])
    (ih : (Phrase.operand false).IsRead ls [t]) (hends : ∀ rest, EndsOperand (ms ++ rest))
    (hmark : ∀ rest, ReadsOn typeSuffix ⟨ms ++ rest, [t]⟩ ⟨rest, [u]⟩) :
    (Phrase.operand false).IsRead (ls ++ ms) [u] := by
  intro rest _
  obtain ⟨x, hprimary, htail, hmarks⟩ := ih (ms ++ rest) (hends rest)
  obtain ⟨l, tail, rfl, -⟩ := h.fronts.exists_cons rfl
  refine ⟨x, ?_, htail, hmarks.trans (.single (hmark rest))⟩
  rw [List.append_assoc]
  exact hprimary

theorem isRead_named (h : Derives true .name ls us) (ih : Phrase.name.IsRead ls us) :
    (Phrase.operand false).IsRead ls [.node .simpleType us] := by
  obtain ⟨n, tail, rfl, hn⟩ := h.fronts.exists_cons rfl
  exact isRead_primary fun rest hrest =>
    reads_primaryType_simple hn (ih rest hrest.angle hrest.member)

theorem isRead_array (opens : o.kind = .lBracket) (closes : c.kind = .rBracket)
    (ih : Phrase.type.IsRead ls [t]) :
    (Phrase.operand false).IsRead (o :: (ls ++ [c])) [.node .arrayType [o.leaf, t, c.leaf]] := by
  refine isRead_primary fun rest _ => ?_
  have helement := ih (c :: rest) (.of_headKind closes (by decide))
  simpa only [List.cons_append, List.append_assoc, List.nil_append] using
    reads_primaryType_collection opens (reads_array opens closes helement)

theorem isRead_dictionary (opens : o.kind = .lBracket) (colon : a.kind = .colon)
    (closes : c.kind = .rBracket) (ihkey : Phrase.type.IsRead ls [t])
    (ihvalue : Phrase.type.IsRead ms [u]) :
    (Phrase.operand false).IsRead (o :: (ls ++ a :: (ms ++ [c])))
      [.node .dictionaryType [o.leaf, t, a.leaf, u, c.leaf]] := by
  refine isRead_primary fun rest _ => ?_
  have hvalue := ihvalue (c :: rest) (.of_headKind closes (by decide))
  have hkey := ihkey (a :: (ms ++ c :: rest)) (.of_headKind colon (by decide))
  simpa only [List.cons_append, List.append_assoc, List.nil_append] using
    reads_primaryType_collection opens (reads_dictionary opens colon closes hkey hvalue)

theorem isRead_tupled (h : Derives true .tuple ls [t]) (ih : Phrase.tuple.IsRead ls [t]) :
    (Phrase.operand false).IsRead ls [t] := by
  obtain ⟨o, tail, rfl, ho⟩ := h.fronts.exists_cons rfl
  exact isRead_primary fun rest _ => reads_primaryType_tuple ho (ih rest)

theorem isRead_function (input : Derives true .tuple ls [t]) (arrow : a.kind = .arrow)
    (ihinput : Phrase.tuple.IsRead ls [t]) (ihoutput : Phrase.type.IsRead ms [u]) :
    (Phrase.operand true).IsRead (ls ++ a :: ms)
      [.node .functionType [t, .node .returnClause [a.leaf, u]]] := by
  intro rest hrest
  obtain ⟨o, tail, rfl, ho⟩ := input.fronts.exists_cons rfl
  have hlist : o :: tail ++ a :: ms ++ rest = o :: tail ++ a :: (ms ++ rest) := by simp
  have heffect : Lookahead.atEffect (a :: (ms ++ rest)) = false := by
    simp [Lookahead.atEffect, Lookahead.atThrows, Lookahead.spells, arrow]
  rw [hlist]
  exact reads_postfixType_function ho (ihinput _) (Lookahead.atFunctionTail_of_arrow arrow)
    (reads_effects_none heffect) (reads_returnClause arrow (ihoutput rest hrest))
    hrest.reads_typeSuffix

theorem isRead_functionEffects {es : List Lexeme} (input : Derives true .tuple ls [t])
    (effects : Derives true .effects es vs) (arrow : a.kind = .arrow)
    (ihinput : Phrase.tuple.IsRead ls [t]) (iheffects : Phrase.effects.IsRead es vs)
    (ihoutput : Phrase.type.IsRead ms [u]) :
    (Phrase.operand true).IsRead (ls ++ (es ++ a :: ms))
      [.node .functionType [t, .node .effectSpecifiers vs, .node .returnClause [a.leaf, u]]] := by
  intro rest hrest
  obtain ⟨o, tail, rfl, ho⟩ := input.fronts.exists_cons rfl
  have hlist : o :: tail ++ (es ++ a :: ms) ++ rest = o :: tail ++ (es ++ a :: (ms ++ rest)) := by
    simp
  have hparen : Lookahead.seesJoined .lParen (a :: (ms ++ rest)) = false :=
    seesJoined_of_headKind (by simp [arrow])
  have heffect : Lookahead.atEffect (a :: (ms ++ rest)) = false := by
    simp [Lookahead.atEffect, Lookahead.atThrows, Lookahead.spells, arrow]
  -- the search for the arrow passes the effects
  have htail : Lookahead.atFunctionTail (es ++ a :: (ms ++ rest)) = true := by
    rw [Lookahead.atFunctionTail, skipEffects_of_derives effects hparen]
    exact Lookahead.atFunctionTail_of_arrow arrow
  have hfirst : Lookahead.atEffect (es ++ a :: (ms ++ rest)) = true := by
    obtain ⟨e, es', rfl, he⟩ := effects.fronts.exists_cons rfl
    exact Lexeme.atEffect_iff.mpr he
  rw [hlist]
  exact reads_postfixType_function ho (ihinput _) htail
    (reads_effects hfirst (iheffects _ hparen) heffect)
    (reads_returnClause arrow (ihoutput rest hrest)) hrest.reads_typeSuffix

/-! ### Effects -/

theorem isRead_moreEffects (more : Derives true .effects ms vs)
    (ihfirst : Phrase.effect.IsRead ls us) (ihmore : Phrase.effects.IsRead ms vs) :
    Phrase.effects.IsRead (ls ++ ms) (us ++ vs) := by
  intro rest hrest
  have hparen : Lookahead.seesJoined .lParen (ms ++ rest) = false := by
    obtain ⟨e, es, rfl, he⟩ := more.fronts.exists_cons rfl
    refine seesJoined_of_headKind fun hk => ?_
    have hplain := (Lexeme.IsEffect.isWord he).plain.1
    rw [List.cons_append, Lookahead.headKind_cons] at hk
    rw [hk] at hplain
    cases hplain
  rw [List.append_assoc]
  exact (ihfirst _ hparen).trans ((ihmore rest hrest).onto us)

theorem isRead_thrown (word : e.kind = .kwThrows ∨ e.kind = .kwRethrows) (opens : o.kind = .lParen)
    (joined : o.IsJoined) (closes : c.kind = .rParen) (ih : Phrase.type.IsRead ls [t]) :
    Phrase.effect.IsRead (e :: o :: (ls ++ [c])) [e.leaf, o.leaf, t, c.leaf] := by
  intro rest _
  have htype := ih (c :: rest) (.of_headKind closes (by decide))
  have hlt : rest.length < (ls ++ c :: rest).length := by
    simp only [List.length_append, List.length_cons]
    omega
  simpa only [List.cons_append, List.append_assoc, List.nil_append] using
    ReadsMany.single (readsOn_effectRound_thrown word opens joined closes htype hlt)

/-! ### Tuples -/

theorem isRead_tuple (opens : o.kind = .lParen) (closes : c.kind = .rParen)
    (ih : (Phrase.parts .tupleElement).IsRead ls us) :
    Phrase.tuple.IsRead (o :: (ls ++ [c])) [.node .tupleType (o.leaf :: (us ++ [c.leaf]))] := by
  intro rest
  simpa only [List.cons_append, List.append_assoc, List.nil_append] using
    reads_tupleType opens closes (ih (c :: rest) closes)

theorem isRead_plain (ih : Phrase.element.IsRead ls us) :
    (Phrase.part .tupleElement).IsRead ls [.node .tupleTypeElement us] := by
  intro rest hrest
  have hkind : Lookahead.headKind rest ∈ [TokenKind.comma, .rParen] := by
    rcases hrest with h | h <;> rw [h] <;> decide
  obtain ⟨x, hlabels, htype⟩ := ih rest (List.mem_append_left [TokenKind.ellipsis] hkind)
  refine reads_tupleTypeElement hlabels htype fun hk => ?_
  rw [hk] at hkind
  exact absurd hkind (by decide)

theorem isRead_variadic (dots : d.kind = .ellipsis) (ih : Phrase.element.IsRead ls us) :
    (Phrase.part .tupleElement).IsRead (ls ++ [d]) [.node .tupleTypeElement (us ++ [d.leaf])] := by
  intro rest _
  obtain ⟨x, hlabels, htype⟩ := ih (d :: rest) (by simp [dots])
  rw [List.append_assoc]
  exact reads_tupleTypeElement_variadic hlabels htype dots

/-- What stands behind an element ends its type. -/
theorem stops_of_element (h : Lookahead.headKind rest ∈ [TokenKind.comma, .rParen, .ellipsis]) :
    Stops rest := by
  simp only [List.mem_cons, List.not_mem_nil, or_false] at h
  rcases h with h | h | h
  · exact .of_headKind h (by decide)
  · exact .of_headKind h (by decide)
  · exact .of_headKind h (by decide)

theorem isRead_element (h : Derives true .type ls [t]) (ih : Phrase.type.IsRead ls [t]) :
    Phrase.element.IsRead ls [t] := by
  intro rest hrest
  have hkind : (Lookahead.headKind rest).isArgumentLabel = false ∧
      Lookahead.headKind rest ≠ .colon := by
    revert hrest
    cases Lookahead.headKind rest <;> decide
  exact ⟨_, reads_labels_none (h.colonFree rfl) hkind.1 hkind.2,
    Reads.follow (r := .type) (ih rest (stops_of_element hrest))⟩

theorem isRead_labelled (label : l.kind.isArgumentLabel = true) (colon : a.kind = .colon)
    (ih : Phrase.type.IsRead ls [t]) :
    Phrase.element.IsRead (l :: a :: ls) [l.leaf, a.leaf, t] := by
  intro rest hrest
  exact ⟨_, reads_labels_one label colon,
    Reads.follow (r := .type) ((ih rest (stops_of_element hrest)).onto [l.leaf, a.leaf])⟩

theorem isRead_labelledTwice (outer : l.kind.isArgumentLabel = true)
    (label : m.kind.isArgumentLabel = true) (colon : a.kind = .colon)
    (ih : Phrase.type.IsRead ls [t]) :
    Phrase.element.IsRead (l :: m :: a :: ls) [l.leaf, m.leaf, a.leaf, t] := by
  intro rest hrest
  exact ⟨_, reads_labels_two outer label colon,
    Reads.follow (r := .type) ((ih rest (stops_of_element hrest)).onto [l.leaf, m.leaf, a.leaf])⟩

/-! ### Names -/

/-- Behind generic arguments there are no others. -/
theorem angle_of_members (h : Derives true .members ms vs)
    (hrest : Lookahead.seesJoined .lt rest = false) :
    Lookahead.seesJoined .lt (ms ++ rest) = false := by
  cases h.fronts with
  | nil _ => exact hrest
  | cons hk =>
    have hkind : _ = TokenKind.dot := hk
    exact seesJoined_of_headKind (by simp [hkind])

theorem isRead_name (first : n.IsTypeName) (members : Derives true .members ms vs)
    (iharguments : Phrase.arguments.IsRead ls us) (ihmembers : Phrase.members.IsRead ms vs) :
    Phrase.name.IsRead (n :: (ls ++ ms)) (n.leaf :: (us ++ vs)) := by
  intro rest hangle hmember
  have hlist : n :: (ls ++ ms) ++ rest = n :: (ls ++ (ms ++ rest)) := by simp
  rw [hlist]
  exact reads_simpleType first.isWord.plain.2.2 (iharguments _ (angle_of_members members hangle))
    (ihmembers rest hangle) hmember

theorem isRead_members (dot : d.kind = .dot) (first : n.IsMemberName)
    (more : Derives true .members ms vs) (iharguments : Phrase.arguments.IsRead ls us)
    (ihmore : Phrase.members.IsRead ms vs) :
    Phrase.members.IsRead (d :: n :: (ls ++ ms)) (d.leaf :: n.leaf :: (us ++ vs)) := by
  intro rest hangle
  have hround : ReadsOn nameMember ⟨d :: n :: (ls ++ (ms ++ rest)), []⟩
      ⟨ms ++ rest, d.leaf :: n.leaf :: us⟩ :=
    readsOn_nameMember dot first (iharguments _ (angle_of_members more hangle))
      (by simp only [List.length_append]; omega)
  have hlist : d :: n :: (ls ++ ms) ++ rest = d :: n :: (ls ++ (ms ++ rest)) := by simp
  rw [hlist]
  exact (ReadsMany.single hround).trans ((ihmore rest hangle).onto (d.leaf :: n.leaf :: us))

theorem isRead_arguments (opens : o.kind = .lt) (joined : o.IsJoined) (closes : c.kind = .gt)
    (ih : (Phrase.parts .genericArgument).IsRead ls us) :
    Phrase.arguments.IsRead (o :: (ls ++ [c]))
      [.node .genericArgumentClause (o.leaf :: (us ++ [c.leaf]))] := by
  intro rest _
  simpa only [List.cons_append, List.append_assoc, List.nil_append] using
    reads_joinedGenericArguments opens joined closes (ih (c :: rest) closes)

theorem isRead_genericArgument (ih : Phrase.type.IsRead ls [t]) :
    (Phrase.part .genericArgument).IsRead ls [.node .genericArgument [t]] := by
  intro rest hrest
  have hstops : Stops rest := by
    rcases hrest with h | h
    · exact .of_headKind h (by decide)
    · exact .of_headKind h (by decide)
  exact Reads.node [] (Reads.follow (r := .type) (ih rest hstops))

/-! ## Completeness -/

/-- The parser reads what the grammar derives, by induction on the derivation. -/
theorem Derives.isRead {p : Phrase} (h : Derives true p ls ts) : p.IsRead ls ts := by
  induction h with
  | type _ ih => exact ih
  | attributed front inner apart ihfront ihinner =>
    exact isRead_attributed front inner (apart rfl) ihfront ihinner
  | bare _ ih => exact ih
  | specified front inner ihfront ihinner => exact isRead_specified front inner ihfront ihinner
  | specifiedAttributed front middle inner apart ihfront ihmiddle ihinner =>
    exact isRead_specifiedAttributed front middle inner (apart rfl) ihfront ihmiddle ihinner
  | specifier h => exact fun rest hrest => ReadsMany.single (readsOn_typeSpecifier h fun _ => hrest)
  | specifiers first more order ih => exact isRead_specifiers first more (order rfl) ih
  | oneAttribute sign name _ arguments application ihpath iharguments ihapplication =>
    exact isRead_oneAttribute sign name arguments application ihpath iharguments ihapplication
  | attributes _ more ihhead ihmore => exact isRead_attributes more ihhead ihmore
  | pathNil => exact fun rest => ReadsMany.refl
  | @path d n _ _ dot name _ ih =>
    exact fun rest => (ReadsMany.single (readsOn_attributeMember dot name)).trans
      ((ih rest).onto [d.leaf, n.leaf])
  | unapplied => exact fun rest hrest => reads_joinedAttributeArguments_none (hrest rfl)
  | appliedNil opens joined closes =>
    exact fun rest _ => reads_joinedAttributeArguments opens (joined rfl) closes
      (.stop (reads_separatedRound_none closes))
  | @applied _ c _ _ opens joined _ closes ih =>
    intro rest _
    simpa only [List.cons_append, List.append_assoc, List.nil_append] using
      reads_joinedAttributeArguments opens (joined rfl) closes (ih (c :: rest) closes)
  | attributeArgument h =>
    exact fun rest hrest => (reads_attributeArgument h hrest).bind Reads.pure
  | lastPart h ih => exact isRead_lastPart h ih
  | moreParts first comma _ ihfirst ihrest => exact isRead_moreParts first comma ihfirst ihrest
  | someOrAny word line inner ih =>
    obtain ⟨_, _, heq, hl⟩ := inner.fronts.exists_cons rfl
    obtain ⟨rfl, rfl⟩ := List.cons.inj heq
    exact fun rest hrest => reads_typeExpr_someOrAny word line hl (ih rest hrest)
  | composition h ih =>
    obtain ⟨l, tail, rfl, hl⟩ := h.fronts.exists_cons rfl
    exact fun rest hrest => reads_typeExpr_composition hl (ih rest hrest)
  | single h ih => exact isRead_single h ih
  | joined first more ihfirst ihmore => exact isRead_joined first more ihfirst ihmore
  | lastOperand amp h ih => exact isRead_lastOperand amp h ih
  | moreOperands amp h more ih ihmore => exact isRead_moreOperands amp h more ih ihmore
  | named h ih => exact isRead_named h ih
  | array opens _ closes ih => exact isRead_array opens closes ih
  | dictionary opens _ colon _ closes ihkey ihvalue =>
    exact isRead_dictionary opens colon closes ihkey ihvalue
  | tupled h ih => exact isRead_tupled h ih
  | function input arrow _ ihinput ihoutput => exact isRead_function input arrow ihinput ihoutput
  | functionEffects input effects arrow _ ihinput iheffects ihoutput =>
    exact isRead_functionEffects input effects arrow ihinput iheffects ihoutput
  | optional h mark joined ih =>
    exact isRead_marked h ih (fun rest => endsOperand_of_headKind mark (by decide))
      fun rest => readsOn_typeSuffix_optional mark joined
  | unwrapped h mark joined ih =>
    exact isRead_marked h ih (fun rest => endsOperand_of_headKind mark (by decide))
      fun rest => readsOn_typeSuffix_unwrapped mark joined
  | metatype h dot word ih =>
    exact isRead_marked h ih (fun rest => endsOperand_metatype dot word)
      fun rest => readsOn_typeSuffix_metatype dot word
  | unit opens closes =>
    exact fun rest => reads_tupleType opens closes (.stop (reads_separatedRound_none closes))
  | tuple opens _ closes ih => exact isRead_tuple opens closes ih
  | plain _ ih => exact isRead_plain ih
  | variadic _ dots ih => exact isRead_variadic dots ih
  | element h ih => exact isRead_element h ih
  | labelled label colon _ ih => exact isRead_labelled label colon ih
  | labelledTwice outer label colon _ ih => exact isRead_labelledTwice outer label colon ih
  | name first _ members iharguments ihmembers =>
    exact isRead_name first members iharguments ihmembers
  | membersNil => exact fun rest _ => ReadsMany.refl
  | members dot first _ more iharguments ihmore =>
    exact isRead_members dot first more iharguments ihmore
  | argumentsNil => exact fun rest hrest => reads_joinedGenericArguments_none hrest
  | arguments opens joined _ closes ih => exact isRead_arguments opens joined closes ih
  | genericArgument _ ih => exact isRead_genericArgument ih
  | lastEffect _ ih => exact ih
  | moreEffects _ more ihfirst ihmore => exact isRead_moreEffects more ihfirst ihmore
  | effect h => exact fun rest hrest => ReadsMany.single (readsOn_effectRound h hrest)
  | thrown word opens joined _ closes ih =>
    exact isRead_thrown word opens (joined rfl) closes ih

/-- What is read at some depth is read at every depth that is enough for the rule. -/
theorem runRule_of_reads {r : Rule} {b : Bool} {s : State} {depth : Nat}
    (h : Reads (body r) b ⟨ls, []⟩ ⟨rest, us⟩) (hr : r ≠ .ifStmt) (hs : s.view.lexemes = ls)
    (hdepth : r.weight s < depth) : runRule depth r s = (b, s.after ⟨rest, us⟩) := by
  obtain ⟨enough, henough⟩ := h s
  obtain ⟨o, ho⟩ := exists_outcome r s fun hif => absurd hif hr
  have hdeep : runRule (max enough (r.weight s) + 1) r s = (b, s.after ⟨rest, us⟩) := by
    rw [runRule, ← State.after_self hs]
    exact henough _ (Nat.le_max_left _ _)
  rw [ho.runRule_eq depth hdepth, ← ho.runRule_eq _ (Nat.lt_succ_of_le (Nat.le_max_right _ _)),
    hdeep]

/-- The parser of types, in front of what does not continue a type, consumes the lexemes `ls` and no
    others, adds the tree `t` to what was built before, and reports nothing. The depth of rules is
    any that the parser can be called with. -/
def Builds (ls : List Lexeme) (t : Tree) : Prop :=
  ∀ (rest : List Lexeme) (s : State) (depth : Nat), Stops rest → s.view.lexemes = ls ++ rest →
    Rule.type.weight s < depth →
    runRule depth .type s =
      (true, { s with view := { s.view with lexemes := rest }, built := t :: s.built })

/-- The parser of types is complete: it builds the tree of every derivation, where parentheses of
    an attribute and of `throws` directly follow, no others do, and `inout` stands in front of the
    other specifiers. -/
theorem builds_of_derives (h : Derives true .type ls [t]) : Builds ls t := by
  intro rest s depth hrest hs hdepth
  have hread : Reads typeExpr true ⟨ls ++ rest, []⟩ ⟨rest, [t]⟩ := h.isRead rest hrest
  exact runRule_of_reads (r := .type) hread (by decide) hs hdepth

/-- `[Int?]` is built. -/
theorem builds_array_of_optional :
    ∃ t, Derives true .type (Lexeme.ofTokens (lex "[Int?]")).1 [t] ∧
      Builds (Lexeme.ofTokens (lex "[Int?]")).1 t := by
  have hlex : (Lexeme.ofTokens (lex "[Int?]")).1 =
      [⟨.lBracket, "[", .none⟩, ⟨.ident, "Int", .none⟩, ⟨.question, "?", .none⟩,
        ⟨.rBracket, "]", .none⟩] := by decide +kernel
  have hname : Derives true (.operand false) [⟨.ident, "Int", .none⟩] [_] :=
    .operand_of_isTypeName (.inr (by decide))
  have hoptional := hname.optional (q := ⟨.question, "?", .none⟩) rfl rfl
  have harray := hoptional.type_of_operand.array (o := ⟨.lBracket, "[", .none⟩)
    (c := ⟨.rBracket, "]", .none⟩) rfl rfl
  rw [hlex]
  exact ⟨_, harray.type_of_operand, builds_of_derives harray.type_of_operand⟩

/-- Where the parser leaves lexemes behind, it does not build a tree of all of them. -/
theorem not_builds_of_lexemes
    (h : (runRule (4 * ls.length + 1) .type (State.initial ls .none)).2.view.lexemes ≠ []) :
    ¬ Builds ls t := by
  intro hbuilds
  have hrun := hbuilds [] (State.initial ls .none) (4 * ls.length + 1) (by simp [Stops])
    (by simp [State.initial]) (Nat.lt_succ_self _)
  rw [hrun] at h
  exact h rfl

/-- Without the conditions on spacing and order, three types are not built: the parentheses of
    `throws` are set apart, those of a function type directly follow an attribute, or `inout`
    follows another specifier. -/
theorem not_builds_of_derives :
    (∃ t, Derives false .type (Lexeme.ofTokens (lex "() throws (E) -> Int")).1 [t] ∧
      ¬ Builds (Lexeme.ofTokens (lex "() throws (E) -> Int")).1 t) ∧
    (∃ t, Derives false .type (Lexeme.ofTokens (lex "@escaping() -> Int")).1 [t] ∧
      ¬ Builds (Lexeme.ofTokens (lex "@escaping() -> Int")).1 t) ∧
    ∃ t, Derives false .type (Lexeme.ofTokens (lex "borrowing inout T")).1 [t] ∧
      ¬ Builds (Lexeme.ofTokens (lex "borrowing inout T")).1 t := by
  have hname : ∀ (word : String) (g : Gap), word ∉ typeSpecifiers ∧ word ≠ "some" ∧ word ≠ "any" →
      Derives false (.operand false) [⟨.ident, word, g⟩]
        [.node .simpleType [.leaf ⟨.ident, word⟩]] :=
    fun word g hword => .operand_of_isTypeName (.inr ⟨rfl, hword⟩)
  have hunit : ∀ g : Gap, Derives false .tuple [⟨.lParen, "(", g⟩, ⟨.rParen, ")", .none⟩]
      [.node .tupleType [.leaf ⟨.lParen, "("⟩, .leaf ⟨.rParen, ")"⟩]] :=
    fun g => .unit rfl rfl
  have hint : Derives false .type [⟨.ident, "Int", ⟨true, false⟩⟩] [_] :=
    (hname "Int" ⟨true, false⟩ (by decide)).type_of_operand
  have hthrows : ∃ t, Derives false .type (Lexeme.ofTokens (lex "() throws (E) -> Int")).1 [t] := by
    have hlex : (Lexeme.ofTokens (lex "() throws (E) -> Int")).1 =
        [⟨.lParen, "(", .none⟩, ⟨.rParen, ")", .none⟩, ⟨.kwThrows, "throws", ⟨true, false⟩⟩,
          ⟨.lParen, "(", ⟨true, false⟩⟩, ⟨.ident, "E", .none⟩, ⟨.rParen, ")", .none⟩,
          ⟨.arrow, "->", ⟨true, false⟩⟩, ⟨.ident, "Int", ⟨true, false⟩⟩] := by decide +kernel
    have heffect := Derives.thrown (e := ⟨.kwThrows, "throws", ⟨true, false⟩⟩)
      (o := ⟨.lParen, "(", ⟨true, false⟩⟩) (c := ⟨.rParen, ")", .none⟩) (.inl rfl) rfl (absurd · Bool.false_ne_true)
      (hname "E" .none (by decide)).type_of_operand rfl
    have hfunction := Derives.functionEffects (a := ⟨.arrow, "->", ⟨true, false⟩⟩) (hunit .none)
      (.lastEffect heffect) rfl hint
    rw [hlex]
    exact ⟨_, hfunction.type_of_operand⟩
  have hattribute : ∃ t, Derives false .type (Lexeme.ofTokens (lex "@escaping() -> Int")).1 [t] := by
    have hlex : (Lexeme.ofTokens (lex "@escaping() -> Int")).1 =
        [⟨.atSign, "@", .none⟩, ⟨.ident, "escaping", .none⟩, ⟨.lParen, "(", .none⟩,
          ⟨.rParen, ")", .none⟩, ⟨.arrow, "->", ⟨true, false⟩⟩,
          ⟨.ident, "Int", ⟨true, false⟩⟩] := by decide +kernel
    have hescaping : Derives false (.attributes false)
        [⟨.atSign, "@", .none⟩, ⟨.ident, "escaping", .none⟩] [_] :=
      .oneAttribute rfl rfl .pathNil .argumentsNil .unapplied
    have hfunction := Derives.function (a := ⟨.arrow, "->", ⟨true, false⟩⟩) (hunit .none) rfl hint
    rw [hlex]
    exact ⟨_, .attributed hescaping (.bare (.composition (.single hfunction)))
      (absurd · Bool.false_ne_true)⟩
  have hinout : ∃ t, Derives false .type (Lexeme.ofTokens (lex "borrowing inout T")).1 [t] := by
    have hlex : (Lexeme.ofTokens (lex "borrowing inout T")).1 =
        [⟨.ident, "borrowing", .none⟩, ⟨.kwInout, "inout", ⟨true, false⟩⟩,
          ⟨.ident, "T", ⟨true, false⟩⟩] := by decide +kernel
    have hspecifiers : Derives false .specifiers
        [⟨.ident, "borrowing", .none⟩, ⟨.kwInout, "inout", ⟨true, false⟩⟩] [_, _] :=
      .specifiers (.inr ⟨rfl, by decide⟩) (.specifier (.inl rfl)) (absurd · Bool.false_ne_true)
    have hT := hname "T" ⟨true, false⟩ (by decide)
    rw [hlex]
    exact ⟨_, .type (.specified hspecifiers (.composition (.single hT)))⟩
  obtain ⟨t, ht⟩ := hthrows
  obtain ⟨u, hu⟩ := hattribute
  obtain ⟨v, hv⟩ := hinout
  exact ⟨⟨t, ht, not_builds_of_lexemes (by decide +kernel)⟩,
    ⟨u, hu, not_builds_of_lexemes (by decide +kernel)⟩,
    ⟨v, hv, not_builds_of_lexemes (by decide +kernel)⟩⟩

end Grammar

end SwiftOutline
