/-
  SwiftOutline.Proofs.TypeExpr.Outlook

  What looking ahead sees of a type expression: the lexeme it begins with, its
  brackets, which are balanced, and no colon before the first of them. So a
  search behind a type expression is not led astray by what is inside.
-/
import SwiftOutline.Proofs.TypeExpr.Derivation
import SwiftOutline.Proofs.Progress.Lookahead

namespace SwiftOutline

namespace Lexeme

variable {l o c : Lexeme} {ls ms inner rest : List Lexeme}

/-! ## Kinds of lexemes -/

theorem ne_eof_of_isOpener (h : l.kind.isOpener = true) : l.kind ≠ .eof := by
  intro hk
  rw [hk] at h
  cases h

theorem ne_eof_of_isCloser (h : l.kind.isCloser = true) : l.kind ≠ .eof := by
  intro hk
  rw [hk] at h
  cases h

theorem isOpener_of_isCloser (h : l.kind.isCloser = true) : l.kind.isOpener = false := by
  cases hk : l.kind <;> rw [hk] at h <;> first | rfl | exact absurd h (by decide)

/-- The lexeme is neither a bracket nor a colon nor the end. -/
structure IsWord (l : Lexeme) : Prop where
  plain : l.IsPlain
  ne_colon : l.kind ≠ .colon

theorem isWord_of_kind {k : TokenKind} (h : l.kind = k)
    (hk : (k.isOpener = false ∧ k.isCloser = false ∧ k ≠ .eof) ∧ k ≠ .colon) : l.IsWord := by
  subst h
  exact ⟨hk.1, hk.2⟩

theorem isPlain_of_colon (h : l.kind = .colon) : l.IsPlain := by
  rw [IsPlain, h]
  decide

theorem isWord_of_isNameLike (h : l.kind.isNameLike = true) : l.IsWord := by
  cases hk : l.kind <;> rw [hk] at h <;>
    first
      | exact isWord_of_kind hk (by decide)
      | exact absurd h (by decide)

theorem isWord_of_isArgumentLabel (h : l.kind.isArgumentLabel = true) : l.IsWord := by
  cases hk : l.kind <;> rw [hk] at h <;>
    first
      | exact isWord_of_kind hk (by decide)
      | exact absurd h (by decide)

theorem Spells.isWord {word : String} (h : l.Spells word) : l.IsWord :=
  isWord_of_kind h.1 (by decide)

theorem IsTypeName.isWord (h : l.IsTypeName) : l.IsWord := by
  rcases h with h | h
  · exact isWord_of_kind h (by decide)
  · exact isWord_of_kind h.1 (by decide)

theorem IsMemberName.isWord (h : l.IsMemberName) : l.IsWord := by
  rcases h with h | h
  · exact isWord_of_kind h (by decide)
  · exact isWord_of_kind h.1 (by decide)

theorem IsSpecifier.isWord (h : l.IsSpecifier) : l.IsWord := by
  rcases h with h | h
  · exact isWord_of_kind h (by decide)
  · exact isWord_of_kind h.1 (by decide)

theorem IsEffect.isWord (h : l.IsEffect) : l.IsWord := by
  rcases h with h | h | h | h
  · exact h.isWord
  · exact h.isWord
  · exact isWord_of_kind h (by decide)
  · exact isWord_of_kind h (by decide)

/-! ## Brackets -/

theorem Nested.append (h : Nested ls) (h' : Nested ms) : Nested (ls ++ ms) := by
  induction h with
  | nil => exact h'
  | plain first _ ih => exact .plain first ih
  | group opens inside closes _ _ ih =>
    rw [List.cons_append, List.append_assoc]
    exact .group opens inside closes ih

theorem IsWord.nested (h : l.IsWord) : Nested [l] := .plain h.plain .nil

theorem IsWord.cons_nested (h : l.IsWord) (h' : Nested ls) : Nested (l :: ls) := .plain h.plain h'

/-- Brackets around balanced lexemes. -/
theorem Nested.bracketed (h : Nested ls) (opens : o.kind.isOpener = true)
    (closes : c.kind.isCloser = true) : Nested (o :: (ls ++ [c])) :=
  .group opens h closes .nil

theorem Argument.nested (h : Argument ls) : Nested ls := by
  induction h with
  | nil => exact .nil
  | plain first _ _ ih => exact .plain first ih
  | group opens inside closes _ ih => exact .group opens inside closes ih

theorem Argument.tail (h : Argument (l :: ls)) (hl : l.kind.isOpener = false) : Argument ls := by
  cases h with
  | plain _ _ rest => exact rest
  | group opens _ _ _ =>
    rw [hl] at opens
    cases opens

/-! ## Colons -/

/-- No colon stands before the first opening bracket. -/
def ColonFree : List Lexeme → Prop
  | [] => True
  | l :: ls => l.kind.isOpener = true ∨ l.kind ≠ .colon ∧ ColonFree ls

theorem ColonFree.append (h : ColonFree ls) (h' : ColonFree ms) : ColonFree (ls ++ ms) := by
  induction ls with
  | nil => exact h'
  | cons l ls ih => exact h.imp_right fun h => ⟨h.1, ih h.2⟩

theorem IsWord.cons_colonFree (hl : l.IsWord) (h : ColonFree ls) : ColonFree (l :: ls) :=
  .inr ⟨hl.ne_colon, h⟩

theorem ColonFree.tail (h : ColonFree (l :: ls)) (hl : l.kind.isOpener = false) : ColonFree ls := by
  rcases h with h | h
  · rw [hl] at h
    cases h
  · exact h.2

theorem ColonFree.headKind_ne (h : ColonFree ls) (hrest : Lookahead.headKind rest ≠ .colon) :
    Lookahead.headKind (ls ++ rest) ≠ .colon := by
  cases ls with
  | nil => exact hrest
  | cons l ls =>
    intro hl
    have hkind : l.kind = .colon := hl
    rcases h with h | h
    · rw [hkind] at h
      cases h
    · exact h.1 hkind

/-! ## Beginnings -/

/-- The lexeme can begin a type without anything in front. -/
def BeginsOperand (l : Lexeme) : Prop :=
  l.IsTypeName ∨ l.kind = .lBracket ∨ l.kind = .lParen

/-- The lexeme can begin a type without specifiers and attributes. -/
def BeginsBare (l : Lexeme) : Prop :=
  l.BeginsOperand ∨ l.Spells "some" ∨ l.Spells "any"

/-- The lexeme can begin a type. -/
def BeginsType (l : Lexeme) : Prop :=
  l.BeginsBare ∨ l.IsSpecifier ∨ l.kind = .atSign

theorem BeginsOperand.kind_mem (h : l.BeginsOperand) :
    l.kind ∈ [TokenKind.ident, .kwCapitalSelf, .lBracket, .lParen] := by
  rcases h with (h | h) | h | h
  · simp [h]
  · simp [h.1]
  · simp [h]
  · simp [h]

theorem BeginsBare.kind_mem (h : l.BeginsBare) :
    l.kind ∈ [TokenKind.ident, .kwCapitalSelf, .lBracket, .lParen] := by
  rcases h with h | h | h
  · exact h.kind_mem
  · simp [h.1]
  · simp [h.1]

theorem BeginsType.kind_mem (h : l.BeginsType) :
    l.kind ∈ [TokenKind.ident, .kwCapitalSelf, .lBracket, .lParen, .kwInout, .atSign] := by
  rcases h with h | (h | h) | h
  · exact List.mem_append_left [TokenKind.kwInout, .atSign] h.kind_mem
  · simp [h]
  · simp [h.1]
  · simp [h]

theorem BeginsBare.not_isSpecifier (h : l.BeginsBare) : ¬ l.IsSpecifier := by
  rintro (hk | ⟨hk, hword⟩)
  · have hmem := h.kind_mem
    rw [hk] at hmem
    exact absurd hmem (by decide)
  · rcases h with (((h | h) | h | h)) | h | h
    · simp [h] at hk
    · exact h.2.1 hword
    · simp [h] at hk
    · simp [h] at hk
    · rw [h.2] at hword
      exact absurd hword (by decide)
    · rw [h.2] at hword
      exact absurd hword (by decide)

theorem not_isSpecifier_of_atSign (h : l.kind = .atSign) : ¬ l.IsSpecifier := by
  rintro (hk | ⟨hk, -⟩) <;> rw [hk] at h <;> cases h

/-- The lexeme can begin an argument of an attribute. -/
def BeginsArgument (l : Lexeme) : Prop :=
  l.kind.isOpener = true ∨ l.IsPlain ∧ l.kind ≠ .comma

theorem Argument.begins (h : Argument (l :: ls)) : l.BeginsArgument := by
  cases h with
  | plain first comma _ => exact .inr ⟨first, comma⟩
  | group opens _ _ _ => exact .inl opens

end Lexeme

/-! ## Skipping -/

namespace Lookahead

variable {l o c : Lexeme} {ls inner rest : List Lexeme}

@[simp] theorem headKind_cons : headKind (l :: ls) = l.kind := rfl

/-- Inside brackets, balanced lexemes are skipped. -/
theorem skipBalanced_nested (h : Lexeme.Nested ls) (depth : Nat) :
    skipBalanced (depth + 1) (ls ++ rest) = skipBalanced (depth + 1) rest := by
  induction h generalizing depth rest with
  | nil => rfl
  | plain first _ ih =>
    obtain ⟨hopen, hclose, heof⟩ := first
    rw [List.cons_append, skipBalanced, if_neg (by simpa using heof)]
    simp only [Parser.depthAfter, hopen, hclose, Bool.false_eq_true, if_false]
    exact ih depth
  | group opens _ closes _ ihinside ih =>
    have hopen := Lexeme.ne_eof_of_isOpener opens
    have hclose := Lexeme.ne_eof_of_isCloser closes
    rw [List.cons_append, List.append_assoc, List.cons_append, skipBalanced,
      if_neg (by simpa using hopen)]
    simp only [Parser.depthAfter, opens, if_true]
    rw [if_neg (by simp), ihinside (depth + 1), skipBalanced, if_neg (by simpa using hclose)]
    simp only [Parser.depthAfter, Lexeme.isOpener_of_isCloser closes, closes, Bool.false_eq_true,
      if_false, if_true]
    exact ih depth

/-- A bracketed group is skipped as a whole. -/
theorem skipBalanced_group (opens : o.kind.isOpener = true) (inside : Lexeme.Nested inner)
    (closes : c.kind.isCloser = true) : skipBalanced 0 (o :: (inner ++ c :: rest)) = rest := by
  have hopen := Lexeme.ne_eof_of_isOpener opens
  have hclose := Lexeme.ne_eof_of_isCloser closes
  rw [skipBalanced, if_neg (by simpa using hopen)]
  simp only [Parser.depthAfter, opens, if_true]
  rw [if_neg (by simp), skipBalanced_nested inside 0, skipBalanced,
    if_neg (by simpa using hclose)]
  simp [Parser.depthAfter, Lexeme.isOpener_of_isCloser closes, closes]

theorem skipEffects_of_some (h : skipEffect? ls = some rest) : skipEffects ls = skipEffects rest := by
  have hlt := shortens_skipEffect? ls rest h
  cases ls with
  | nil => exact absurd hlt (Nat.not_lt_zero _)
  | cons l ls =>
    rw [skipEffects, List.length_cons, skipMany, h]
    exact skipMany_congr shortens_skipEffect? (Nat.le_of_lt_succ hlt) (Nat.le_refl _)

theorem skipEffects_of_none (h : skipEffect? ls = none) : skipEffects ls = ls := by
  cases ls with
  | nil => rfl
  | cons l ls => rw [skipEffects, List.length_cons, skipMany, h]

theorem skipEffect?_of_not_atEffect (h : atEffect ls = false) : skipEffect? ls = none := by
  have hthrows : atThrows ls = false := by
    rw [atEffect] at h
    simp_all
  simp [skipEffect?, hthrows, h]

/-- Where an arrow comes next, the tail of a function begins. -/
theorem atFunctionTail_of_arrow (h : headKind ls = .arrow) : atFunctionTail ls = true := by
  have heffect : atEffect ls = false := by
    cases ls with
    | nil => rfl
    | cons l ls =>
      rw [headKind] at h
      simp [atEffect, atThrows, headKind, spells, h]
  rw [atFunctionTail, skipEffects_of_none (skipEffect?_of_not_atEffect heffect), h]
  rfl

/-- Where neither an effect nor an arrow comes next, there is no tail of a function. -/
theorem atFunctionTail_of_not (h : atEffect ls = false) (harrow : headKind ls ≠ .arrow) :
    atFunctionTail ls = false := by
  rw [atFunctionTail, skipEffects_of_none (skipEffect?_of_not_atEffect h)]
  simpa using harrow

end Lookahead

namespace Lexeme

open Lookahead

theorem atEffect_iff {l : Lexeme} {ls : List Lexeme} : atEffect (l :: ls) = true ↔ l.IsEffect := by
  simp only [atEffect, atThrows, headKind, spells, IsEffect, Spells, Bool.or_eq_true,
    Bool.and_eq_true, beq_iff_eq]
  grind

theorem atThrows_iff {l : Lexeme} {ls : List Lexeme} :
    atThrows (l :: ls) = true ↔ l.kind = .kwThrows ∨ l.kind = .kwRethrows := by
  simp only [atThrows, headKind, Bool.or_eq_true, beq_iff_eq]

end Lexeme

/-! ## Phrases -/

namespace Grammar

open Lexeme

variable {strict : Bool} {p : Phrase} {ls rest : List Lexeme} {ts : List Tree}

/-- The lexeme can begin a phrase that is not empty. -/
def Phrase.Opens : Phrase → Lexeme → Prop
  | .type, l | .part .genericArgument, l | .parts .genericArgument, l => l.BeginsType
  | .specified, l => l.BeginsBare ∨ l.IsSpecifier
  | .bare, l => l.BeginsBare
  | .composition, l | .operand _, l => l.BeginsOperand
  | .operands, l => l.kind = .amp
  | .tuple, l => l.kind = .lParen
  | .element, l | .part .tupleElement, l | .parts .tupleElement, l =>
    l.kind.isArgumentLabel = true ∨ l.BeginsType
  | .part .attributeArgument, l | .parts .attributeArgument, l => l.BeginsArgument
  | .name, l => l.IsTypeName
  | .members, l | .path, l => l.kind = .dot
  | .arguments, l => l.kind = .lt
  | .effects, l | .effect, l => l.IsEffect
  | .specifiers, l => l.IsSpecifier
  | .attributes _, l => l.kind = .atSign
  | .application _, l => l.kind = .lParen

/-- Phrases that can be empty. -/
def Phrase.mayBeEmpty : Phrase → Bool
  | .members | .path | .arguments | .application _ => true
  | _ => false

/-- The lexemes begin as the phrase does. -/
inductive Phrase.Fronts (p : Phrase) : List Lexeme → Prop where
  | nil (h : p.mayBeEmpty = true) : Fronts p []
  | cons {l : Lexeme} {ls : List Lexeme} (h : p.Opens l) : Fronts p (l :: ls)

namespace Phrase.Fronts

variable {q : Phrase}

/-- A phrase that is not empty has a first lexeme. -/
theorem exists_cons (h : p.Fronts ls) (hp : p.mayBeEmpty = false) :
    ∃ l tail, ls = l :: tail ∧ p.Opens l := by
  cases h with
  | nil h =>
    rw [h] at hp
    cases hp
  | cons h => exact ⟨_, _, rfl, h⟩

theorem append (ms : List Lexeme) (h : p.Fronts ls) (hp : p.mayBeEmpty = false) (hq : ∀ l, p.Opens l → q.Opens l) :
    q.Fronts (ls ++ ms) := by
  obtain ⟨l, tail, rfl, hl⟩ := h.exists_cons hp
  exact .cons (hq l hl)

theorem imp (h : p.Fronts ls) (hp : p.mayBeEmpty = false) (hq : ∀ l, p.Opens l → q.Opens l) :
    q.Fronts ls := by
  simpa only [List.append_nil] using h.append [] hp hq

end Phrase.Fronts

/-- A phrase begins with a lexeme that can begin it. -/
theorem Derives.fronts (h : Derives strict p ls ts) : p.Fronts ls := by
  induction h with
  | type _ ih => exact ih.imp rfl fun l hl => hl.imp_right .inl
  | attributed _ _ _ ih _ => exact ih.append _ rfl fun l hl => .inr (.inr hl)
  | bare _ ih => exact ih.imp rfl fun l hl => .inl hl
  | specified _ _ ih _ => exact ih.append _ rfl fun l hl => .inr hl
  | specifiedAttributed _ _ _ _ ih _ _ => exact ih.append _ rfl fun l hl => .inr hl
  | specifier h => exact .cons h
  | specifiers first _ _ _ => exact .cons first
  | oneAttribute sign _ _ _ _ _ _ _ => exact .cons sign
  | attributes _ _ ih _ => exact ih.append _ rfl fun l hl => hl
  | pathNil => exact .nil rfl
  | path dot _ _ _ => exact .cons dot
  | unapplied => exact .nil rfl
  | appliedNil opens _ _ => exact .cons opens
  | applied opens _ _ _ _ => exact .cons opens
  | attributeArgument h => exact .cons h.begins
  | @lastPart p _ _ _ ih => cases p <;> exact ih.imp rfl fun l hl => hl
  | @moreParts p _ _ _ _ _ _ _ _ ih _ => cases p <;> exact ih.append _ rfl fun l hl => hl
  | someOrAny word _ _ _ => exact .cons (.inr word)
  | composition _ ih => exact ih.imp rfl fun l hl => .inl hl
  | single _ ih => exact ih.imp rfl fun l hl => hl
  | joined _ _ ih _ => exact ih.append _ rfl fun l hl => hl
  | lastOperand amp _ _ => exact .cons amp
  | moreOperands amp _ _ _ _ => exact .cons amp
  | named _ ih => exact ih.imp rfl fun l hl => .inl hl
  | array opens _ _ _ => exact .cons (.inr (.inl opens))
  | dictionary opens _ _ _ _ _ _ => exact .cons (.inr (.inl opens))
  | tupled _ ih => exact ih.imp rfl fun l hl => .inr (.inr hl)
  | function _ _ _ ih _ => exact ih.append _ rfl fun l hl => .inr (.inr hl)
  | functionEffects _ _ _ _ ih _ _ => exact ih.append _ rfl fun l hl => .inr (.inr hl)
  | optional _ _ _ ih => exact ih.append _ rfl fun l hl => hl
  | unwrapped _ _ _ ih => exact ih.append _ rfl fun l hl => hl
  | metatype _ _ _ ih => exact ih.append _ rfl fun l hl => hl
  | unit opens _ => exact .cons opens
  | tuple opens _ _ _ => exact .cons opens
  | plain _ ih => exact ih.imp rfl fun l hl => hl
  | variadic _ _ ih => exact ih.append _ rfl fun l hl => hl
  | element _ ih => exact ih.imp rfl fun l hl => .inr hl
  | labelled label _ _ _ => exact .cons (.inl label)
  | labelledTwice outer _ _ _ _ => exact .cons (.inl outer)
  | name first _ _ _ _ => exact .cons first
  | membersNil => exact .nil rfl
  | members dot _ _ _ _ _ => exact .cons dot
  | argumentsNil => exact .nil rfl
  | arguments opens _ _ _ _ => exact .cons opens
  | genericArgument _ ih => exact ih.imp rfl fun l hl => hl
  | lastEffect _ ih => exact ih.imp rfl fun l hl => hl
  | moreEffects _ _ ih _ => exact ih.append _ rfl fun l hl => hl
  | effect h => exact .cons h
  | thrown word _ _ _ _ _ => exact .cons (.inr (.inr word))

/-- The brackets of a phrase are balanced. -/
theorem Derives.nested (h : Derives strict p ls ts) : Nested ls := by
  induction h with
  | type _ ih | bare _ ih | lastPart _ ih | composition _ ih | single _ ih | named _ ih
  | tupled _ ih | plain _ ih | element _ ih | genericArgument _ ih | lastEffect _ ih => exact ih
  | attributed _ _ _ ihl ihm | specified _ _ ihl ihm | attributes _ _ ihl ihm
  | joined _ _ ihl ihm | moreEffects _ _ ihl ihm => exact ihl.append ihm
  | specifiedAttributed _ _ _ _ ihl ihm ihn => exact ihl.append (ihm.append ihn)
  | specifier h => exact h.isWord.nested
  | specifiers first _ _ ih => exact first.isWord.cons_nested ih
  | oneAttribute sign name _ _ _ ihl ihm ihn =>
    exact (isWord_of_kind sign (by decide)).cons_nested
      ((isWord_of_isNameLike name).cons_nested (ihl.append (ihm.append ihn)))
  | pathNil | unapplied | membersNil | argumentsNil => exact .nil
  | path dot name _ ih =>
    exact (isWord_of_kind dot (by decide)).cons_nested ((isWord_of_isNameLike name).cons_nested ih)
  | appliedNil opens _ closes | unit opens closes =>
    exact Nested.nil.bracketed (by rw [opens]; rfl) (by rw [closes]; rfl)
  | applied opens _ _ closes ih | tuple opens _ closes ih =>
    exact ih.bracketed (by rw [opens]; rfl) (by rw [closes]; rfl)
  | attributeArgument h => exact h.nested
  | moreParts _ comma _ ihl ihm =>
    exact ihl.append ((isWord_of_kind comma (by decide)).cons_nested ihm)
  | someOrAny word _ _ ih => exact (word.elim Spells.isWord Spells.isWord).cons_nested ih
  | lastOperand amp _ ih => exact (isWord_of_kind amp (by decide)).cons_nested ih
  | moreOperands amp _ _ ihl ihm =>
    exact (isWord_of_kind amp (by decide)).cons_nested (ihl.append ihm)
  | array opens _ closes ih => exact ih.bracketed (by rw [opens]; rfl) (by rw [closes]; rfl)
  | @dictionary o a c ls ms _ _ opens _ colon _ closes ihl ihm =>
    have hinside : Nested (ls ++ a :: ms) :=
      ihl.append (.plain (isPlain_of_colon colon) ihm)
    have hbrackets : Nested (o :: ((ls ++ a :: ms) ++ [c])) :=
      hinside.bracketed (by rw [opens]; rfl) (by rw [closes]; rfl)
    simpa using hbrackets
  | function _ arrow _ ihl ihm =>
    exact ihl.append ((isWord_of_kind arrow (by decide)).cons_nested ihm)
  | functionEffects _ _ arrow _ ihl ihe ihm =>
    exact ihl.append (ihe.append ((isWord_of_kind arrow (by decide)).cons_nested ihm))
  | optional _ mark _ ih | unwrapped _ mark _ ih =>
    exact ih.append (isWord_of_kind mark (by decide)).nested
  | metatype _ dot word ih =>
    exact ih.append ((isWord_of_kind dot (by decide)).cons_nested
      (word.elim Spells.isWord Spells.isWord).nested)
  | variadic _ dots ih => exact ih.append (isWord_of_kind dots (by decide)).nested
  | labelled label colon _ ih =>
    exact (isWord_of_isArgumentLabel label).cons_nested (.plain (isPlain_of_colon colon) ih)
  | labelledTwice outer label colon _ ih =>
    exact (isWord_of_isArgumentLabel outer).cons_nested
      ((isWord_of_isArgumentLabel label).cons_nested (.plain (isPlain_of_colon colon) ih))
  | name first _ _ ihl ihm => exact first.isWord.cons_nested (ihl.append ihm)
  | members dot first _ _ ihl ihm =>
    exact (isWord_of_kind dot (by decide)).cons_nested (first.isWord.cons_nested (ihl.append ihm))
  | @arguments o c ls _ opens _ _ closes ih =>
    exact (isWord_of_kind opens (by decide)).cons_nested
      (ih.append (isWord_of_kind closes (by decide)).nested)
  | effect h => exact h.isWord.nested
  | thrown word opens _ _ closes ih =>
    have heffect : Lexeme.IsEffect _ := .inr (.inr word)
    exact heffect.isWord.cons_nested (ih.bracketed (by rw [opens]; rfl) (by rw [closes]; rfl))

/-- Phrases that can hold a colon outside brackets. -/
def Phrase.holdsColon : Phrase → Bool
  | .element | .part .tupleElement | .parts .tupleElement | .part .attributeArgument
  | .parts .attributeArgument => true
  | _ => false

/-- Other phrases have colons in brackets only. -/
theorem Derives.colonFree (h : Derives strict p ls ts) (hp : p.holdsColon = false) :
    ColonFree ls := by
  induction h with
  | type _ ih | bare _ ih | composition _ ih | single _ ih | named _ ih | tupled _ ih
  | genericArgument _ ih | lastEffect _ ih => exact ih rfl
  | lastPart _ ih => exact ih (by cases ‹Part› <;> exact hp)
  | moreParts _ comma _ ihl ihm =>
    have hpart := ihl (by cases ‹Part› <;> exact hp)
    exact hpart.append ((isWord_of_kind comma (by decide)).cons_colonFree (ihm hp))
  | attributed _ _ _ ihl ihm | specified _ _ ihl ihm | attributes _ _ ihl ihm
  | joined _ _ ihl ihm | moreEffects _ _ ihl ihm => exact (ihl rfl).append (ihm rfl)
  | specifiedAttributed _ _ _ _ ihl ihm ihn => exact (ihl rfl).append ((ihm rfl).append (ihn rfl))
  | specifier h => exact h.isWord.cons_colonFree trivial
  | specifiers first _ _ ih => exact first.isWord.cons_colonFree (ih rfl)
  | oneAttribute sign name _ _ _ ihl ihm ihn =>
    exact (isWord_of_kind sign (by decide)).cons_colonFree
      ((isWord_of_isNameLike name).cons_colonFree ((ihl rfl).append ((ihm rfl).append (ihn rfl))))
  | pathNil | unapplied | membersNil | argumentsNil => exact trivial
  | path dot name _ ih =>
    exact (isWord_of_kind dot (by decide)).cons_colonFree
      ((isWord_of_isNameLike name).cons_colonFree (ih rfl))
  | appliedNil opens _ _ | applied opens _ _ _ _ | unit opens _ | tuple opens _ _ _
  | array opens _ _ _ | dictionary opens _ _ _ _ _ _ => exact .inl (by rw [opens]; rfl)
  | someOrAny word _ _ ih => exact (word.elim Spells.isWord Spells.isWord).cons_colonFree (ih rfl)
  | lastOperand amp _ ih => exact (isWord_of_kind amp (by decide)).cons_colonFree (ih rfl)
  | moreOperands amp _ _ ihl ihm =>
    exact (isWord_of_kind amp (by decide)).cons_colonFree ((ihl rfl).append (ihm rfl))
  | function _ arrow _ ihl ihm =>
    exact (ihl rfl).append ((isWord_of_kind arrow (by decide)).cons_colonFree (ihm rfl))
  | functionEffects _ _ arrow _ ihl ihe ihm =>
    exact (ihl rfl).append
      ((ihe rfl).append ((isWord_of_kind arrow (by decide)).cons_colonFree (ihm rfl)))
  | optional _ mark _ ih | unwrapped _ mark _ ih =>
    exact (ih rfl).append ((isWord_of_kind mark (by decide)).cons_colonFree trivial)
  | metatype _ dot word ih =>
    exact (ih rfl).append ((isWord_of_kind dot (by decide)).cons_colonFree
      ((word.elim Spells.isWord Spells.isWord).cons_colonFree trivial))
  | name first _ _ ihl ihm => exact first.isWord.cons_colonFree ((ihl rfl).append (ihm rfl))
  | members dot first _ _ ihl ihm =>
    exact (isWord_of_kind dot (by decide)).cons_colonFree
      (first.isWord.cons_colonFree ((ihl rfl).append (ihm rfl)))
  | arguments opens _ _ closes ih =>
    exact (isWord_of_kind opens (by decide)).cons_colonFree
      ((ih rfl).append ((isWord_of_kind closes (by decide)).cons_colonFree trivial))
  | effect h => exact h.isWord.cons_colonFree trivial
  | thrown word opens _ _ _ _ =>
    have heffect : Lexeme.IsEffect _ := .inr (.inr word)
    exact heffect.isWord.cons_colonFree (.inl (by rw [opens]; rfl))
  | attributeArgument | plain | variadic | element | labelled | labelledTwice => cases hp

/-! ## Effects -/

/-- An effect specifier is skipped with the type that it throws. -/
theorem skipEffect?_of_derives (h : Derives true .effect ls ts)
    (hrest : Lookahead.seesJoined .lParen rest = false) :
    Lookahead.skipEffect? (ls ++ rest) = some rest := by
  cases h with
  | @effect e h =>
    have hat : Lookahead.atEffect (e :: rest) = true := atEffect_iff.mpr h
    cases hthrows : Lookahead.atThrows (e :: rest) with
    | true => simp [Lookahead.skipEffect?, hthrows, hrest]
    | false => simp [Lookahead.skipEffect?, hthrows, hat]
  | @thrown e o c ls _ word opens joined type closes =>
    have hat : Lookahead.atThrows (e :: o :: (ls ++ c :: rest)) = true := atThrows_iff.mpr word
    have hopen : Lookahead.seesJoined .lParen (o :: (ls ++ c :: rest)) = true := by
      have hjoined : o.gap.trivia = false := joined rfl
      simp [Lookahead.seesJoined, opens, hjoined]
    have hskip : Lookahead.skipBalanced 0 (o :: (ls ++ c :: rest)) = rest :=
      Lookahead.skipBalanced_group (by rw [opens]; rfl) type.nested (by rw [closes]; rfl)
    simp [Lookahead.skipEffect?, hat, hopen, hskip]

/-- Effect specifiers are skipped one by one. -/
theorem skipEffects_of_derives (h : Derives true .effects ls ts)
    (hrest : Lookahead.seesJoined .lParen rest = false) :
    Lookahead.skipEffects (ls ++ rest) = Lookahead.skipEffects rest := by
  generalize hp : Phrase.effects = p at h
  induction h with
  | lastEffect h _ =>
    exact Lookahead.skipEffects_of_some (skipEffect?_of_derives h hrest)
  | @moreEffects ls ms _ _ first more _ ih =>
    -- what follows an effect specifier is an arrow or another one, and no parenthesis
    have hnext : Lookahead.seesJoined .lParen (ms ++ rest) = false := by
      obtain ⟨l, tail, rfl, hl⟩ := more.fronts.exists_cons rfl
      have hkind : l.kind ≠ .lParen := by
        intro hk
        have hplain := hl.isWord.plain.1
        rw [hk] at hplain
        cases hplain
      simp [Lookahead.seesJoined, hkind]
    rw [List.append_assoc,
      Lookahead.skipEffects_of_some (skipEffect?_of_derives first hnext)]
    exact ih rfl
  | _ => cases hp

end Grammar

end SwiftOutline
