/-
  SwiftOutline.Proofs.Cut.Lookahead

  Looking ahead on a front part of a text. Nothing that is skipped goes past a
  closing bracket or a directive which comes behind closed brackets: what stands
  behind it makes no difference. Without one, it is still known that a front
  part is skipped in the same way as long as something is left of it.
-/
import SwiftOutline.Proofs.Cut.State

namespace SwiftOutline

open Lexeme (Closes)

/-- A lexeme that ends what can be skipped: a closing bracket or a directive. -/
def Lexeme.IsWall (l : Lexeme) : Prop := l.kind.isCloser = true ∨ l.kind.isDirective = true

namespace Lexeme.IsWall

variable {l : Lexeme}

theorem ne {k : TokenKind} (h : l.IsWall) (hc : k.isCloser = false) (hd : k.isDirective = false) :
    l.kind ≠ k := by
  rintro rfl
  rcases h with h | h
  · rw [hc] at h
    cases h
  · rw [hd] at h
    cases h

theorem not_isNameLike (h : l.IsWall) : l.kind.isNameLike = false := by
  rw [Lexeme.IsWall] at h
  revert h
  cases l.kind <;> decide

end Lexeme.IsWall

namespace Lookahead

variable {front ls ms rest : List Lexeme} {l : Lexeme} {depth : Nat}

/-! ## Walls -/

/-- What `skip` leaves of `front` and what begins with the wall `l` does not depend on what comes
    behind the wall. -/
def StopsAt (skip : List Lexeme → List Lexeme) (front : List Lexeme) (l : Lexeme) : Prop :=
  ∃ left, left <:+ front ∧ Closes left 0 0 ∧ ∀ rest, skip (front ++ l :: rest) = left ++ l :: rest

/-- A part of closed brackets is closed as well. -/
theorem closes_suffix (h : Closes front 0 depth) (hls : ls <:+ front) : Closes ls 0 0 := by
  obtain ⟨before, rfl⟩ := hls
  obtain ⟨k, -, hk⟩ := h.exists_of_append
  exact hk.mono (Nat.zero_le k)

theorem stopsAt_id (h : Closes front 0 0) : StopsAt id front l :=
  ⟨front, List.suffix_rfl, h, fun _ => rfl⟩

theorem StopsAt.comp {f g : List Lexeme → List Lexeme} (hf : StopsAt f front l)
    (hg : ∀ left, left <:+ front → Closes left 0 0 → StopsAt g left l) :
    StopsAt (fun ls => g (f ls)) front l := by
  obtain ⟨left, hleft, hcloses, hskip⟩ := hf
  obtain ⟨left', hleft', hcloses', hskip'⟩ := hg left hleft hcloses
  refine ⟨left', hleft'.trans hleft, hcloses', fun rest => ?_⟩
  dsimp only
  rw [hskip, hskip']

theorem StopsAt.congr {f g : List Lexeme → List Lexeme} (h : StopsAt f front l)
    (hfg : ∀ rest, g (front ++ l :: rest) = f (front ++ l :: rest)) : StopsAt g front l := by
  obtain ⟨left, hleft, hcloses, hskip⟩ := h
  exact ⟨left, hleft, hcloses, fun rest => (hfg rest).trans (hskip rest)⟩

/-- Brackets that are closed are skipped inside of what closes them. -/
theorem exists_skipBalanced (h : Closes front 0 depth) (hne : depth ≠ 0 ∨ front ≠ []) :
    ∃ left, left <:+ front ∧ Closes left 0 0 ∧
      ∀ tail, skipBalanced depth (front ++ tail) = left ++ tail := by
  induction front generalizing depth with
  | nil =>
    cases h with
    | nil h => exact absurd (Nat.le_zero.mp h) (hne.resolve_right fun h => h rfl)
  | cons l front ih =>
    by_cases heof : l.kind = .eof
    · refine ⟨l :: front, List.suffix_rfl, h.mono (Nat.zero_le _), fun tail => ?_⟩
      rw [List.cons_append, skipBalanced, if_pos (beq_iff_eq.mpr heof)]
    · -- what is left over is enough for the brackets that are open behind `l`
      have hafter : Closes front 0 (Parser.depthAfter depth l.kind) := by
        rw [Parser.depthAfter]
        cases h with
        | opener hl rest => rwa [if_pos hl]
        | closer hl rest hk =>
          rw [if_neg (by simp [Lexeme.isOpener_of_isCloser hl]), if_pos hl]
          exact rest.mono (by omega)
        | plain ho hc rest =>
          rw [if_neg (by simp [ho]), if_neg (by simp [hc])]
          exact rest
      have hstep : ∀ tail, skipBalanced depth (l :: front ++ tail) =
          if Parser.depthAfter depth l.kind == 0 then front ++ tail
          else skipBalanced (Parser.depthAfter depth l.kind) (front ++ tail) := by
        intro tail
        rw [List.cons_append, skipBalanced, if_neg (by simpa using heof)]
      by_cases hzero : Parser.depthAfter depth l.kind = 0
      · refine ⟨front, List.suffix_cons l front, hafter.mono (Nat.zero_le _), fun tail => ?_⟩
        rw [hstep, if_pos (beq_iff_eq.mpr hzero)]
      · obtain ⟨left, hleft, hcloses, hskip⟩ := ih hafter (.inl hzero)
        refine ⟨left, hleft.trans (List.suffix_cons l front), hcloses, fun tail => ?_⟩
        rw [hstep, if_neg (by simpa using hzero), hskip]

theorem headKind_append (h : front ≠ []) : headKind (front ++ rest) = headKind front := by
  cases front with
  | nil => exact absurd rfl h
  | cons l front => rfl

/-- `f` does not depend on what comes behind the wall. -/
def Blind {τ : Type} (f : List Lexeme → τ) (front : List Lexeme) (l : Lexeme) : Prop :=
  ∀ rest rest', f (front ++ l :: rest) = f (front ++ l :: rest')

theorem blind_headKind : Blind headKind front l := by
  intro rest rest'
  cases front <;> rfl

theorem blind_seesJoined {k : TokenKind} : Blind (seesJoined k) front l := by
  intro rest rest'
  cases front <;> rfl

theorem blind_spells {word : String} : Blind (spells word) front l := by
  intro rest rest'
  cases front <;> rfl

theorem blind_atWordOf {words : List String} : Blind (atWordOf words) front l := by
  intro rest rest'
  cases front <;> rfl

theorem StopsAt.ite {f g : List Lexeme → List Lexeme} {cond : List Lexeme → Bool}
    (hcond : Blind cond front l) (hf : cond (front ++ [l]) = true → StopsAt f front l)
    (hg : cond (front ++ [l]) = false → StopsAt g front l) :
    StopsAt (fun ls => if cond ls then f ls else g ls) front l := by
  cases h : cond (front ++ [l]) with
  | true =>
    refine (hf h).congr fun rest => ?_
    rw [hcond rest [], h, if_pos rfl]
  | false =>
    refine (hg h).congr fun rest => ?_
    rw [hcond rest [], h, if_neg Bool.false_ne_true]

theorem stopsAt_drop {n : Nat} (hn : n ≤ front.length) (h : Closes front 0 0) :
    StopsAt (List.drop n) front l :=
  ⟨front.drop n, List.drop_suffix n front, closes_suffix h (List.drop_suffix n front),
    fun _ => List.drop_append_of_le_length hn⟩

/-! ## Attributes -/

theorem skipMembers_of_wall (hl : l.IsWall) : skipMembers (l :: rest) = l :: rest := by
  cases rest with
  | nil => rfl
  | cons x rest =>
    rw [skipMembers, if_neg]
    simp [hl.ne (k := .dot) rfl rfl]

theorem stopsAt_skipMembers (hl : l.IsWall) (h : Closes front 0 0) :
    StopsAt skipMembers front l := by
  induction hn : front.length using Nat.strongRecOn generalizing front with
  | ind n ih =>
    match front, h, hn with
    | [], h, _ => exact ⟨[], List.suffix_rfl, h, fun rest => skipMembers_of_wall hl⟩
    | [x], h, _ =>
      refine ⟨[x], List.suffix_rfl, h, fun rest => ?_⟩
      show skipMembers (x :: l :: rest) = x :: l :: rest
      rw [skipMembers, if_neg]
      simp [hl.not_isNameLike]
    | d :: n :: front, h, hn =>
      by_cases hmember : (d.kind == .dot && n.kind.isNameLike) = true
      · have hsuffix : front <:+ d :: n :: front := ⟨[d, n], rfl⟩
        obtain ⟨left, hleft, hcloses, hskip⟩ := ih front.length
          (by rw [← hn, List.length_cons, List.length_cons]; omega) (closes_suffix h hsuffix) rfl
        refine ⟨left, hleft.trans hsuffix, hcloses, fun rest => ?_⟩
        rw [← hskip, List.cons_append, List.cons_append, skipMembers, if_pos hmember]
      · refine ⟨d :: n :: front, List.suffix_rfl, h, fun rest => ?_⟩
        rw [List.cons_append, List.cons_append, skipMembers, if_neg hmember]

theorem stopsAt_skipAttributeName (hl : l.IsWall) (h : Closes front 0 0) (hne : front ≠ []) :
    StopsAt skipAttributeName front l := by
  match front, hne, h with
  | [a], _, h =>
    refine ⟨[], ⟨[a], rfl⟩, closes_suffix h ⟨[a], rfl⟩, fun rest => ?_⟩
    show (if l.kind.isNameLike then _ else l :: rest) = l :: rest
    rw [hl.not_isNameLike, if_neg Bool.false_ne_true]
  | a :: n :: front, _, h =>
    have hsuffix : front <:+ a :: n :: front := ⟨[a, n], rfl⟩
    obtain ⟨left, hleft, hcloses, hskip⟩ := stopsAt_skipMembers hl (closes_suffix h hsuffix)
    cases hname : n.kind.isNameLike with
    | true =>
      refine ⟨left, hleft.trans hsuffix, hcloses, fun rest => ?_⟩
      show (if n.kind.isNameLike then skipMembers (front ++ l :: rest) else _) = _
      rw [hname, if_pos rfl, hskip]
    | false =>
      refine ⟨n :: front, ⟨[a], rfl⟩, closes_suffix h ⟨[a], rfl⟩, fun rest => ?_⟩
      show (if n.kind.isNameLike then _ else n :: front ++ l :: rest) = _
      rw [hname, if_neg Bool.false_ne_true]

/-- The attributes before a wall have no generic arguments. -/
def Bare (front : List Lexeme) (l : Lexeme) : Prop :=
  ∀ ms, ms <:+ front → headKind ms = .atSign → ∃ rest, PlainAttribute (ms ++ l :: rest)

theorem Bare.suffix (h : Bare front l) (hls : ls <:+ front) : Bare ls l :=
  fun ms hms => h ms (hms.trans hls)

theorem skipAttribute_of_noGenerics (h : seesJoined .lt (skipAttributeName ls) = false) :
    skipAttribute ls = if seesJoined .lParen (skipAttributeName ls) then
      skipBalanced 0 (skipAttributeName ls) else skipAttributeName ls := by
  unfold skipAttributeName at h ⊢
  rw [skipAttribute]
  simp only [List.drop_drop]
  rw [h]
  rfl

theorem stopsAt_skipAttribute (hl : l.IsWall) (h : Closes front 0 0) (hbare : Bare front l)
    (hat : headKind front = .atSign) : StopsAt skipAttribute front l := by
  have hne : front ≠ [] := by
    rintro rfl
    cases hat
  obtain ⟨left, hleft, hcloses, hname⟩ := stopsAt_skipAttributeName hl h hne
  -- the attribute is plain in some text, so it has no generic arguments in any
  obtain ⟨rest₀, hplain⟩ := hbare front List.suffix_rfl hat
  have hno : ∀ rest, seesJoined .lt (left ++ l :: rest) = false := by
    intro rest
    have hno := hplain.noGenerics
    rw [hname] at hno
    rw [← hno]
    exact blind_seesJoined rest rest₀
  have hattribute : ∀ rest, skipAttribute (front ++ l :: rest) =
      if seesJoined .lParen (left ++ l :: rest) then skipBalanced 0 (left ++ l :: rest)
      else left ++ l :: rest := by
    intro rest
    rw [skipAttribute_of_noGenerics (by rw [hname]; exact hno rest), hname]
  have hparens : StopsAt (fun ls => if seesJoined .lParen ls then skipBalanced 0 ls else ls)
      left l := by
    refine .ite blind_seesJoined (fun hparen => ?_) fun _ => stopsAt_id hcloses
    have hnil : left ≠ [] := by
      rintro rfl
      have hk := (Bool.and_eq_true_iff.mp hparen).1
      exact hl.ne (k := .lParen) rfl rfl (eq_of_beq hk)
    obtain ⟨left', hleft', hcloses', hskip⟩ := exists_skipBalanced hcloses (.inr hnil)
    exact ⟨left', hleft', hcloses', fun rest => hskip (l :: rest)⟩
  obtain ⟨left', hleft', hcloses', hskip⟩ := hparens
  exact ⟨left', hleft'.trans hleft, hcloses', fun rest => (hattribute rest).trans (hskip rest)⟩

theorem stopsAt_skipAttributes (hl : l.IsWall) (h : Closes front 0 0) (hbare : Bare front l) :
    StopsAt skipAttributes front l := by
  induction hn : front.length using Nat.strongRecOn generalizing front with
  | ind n ih =>
    by_cases hat : headKind front = .atSign
    · have hat' : ∀ rest, headKind (front ++ l :: rest) = .atSign := by
        intro rest
        cases front with
        | nil => cases hat
        | cons a front => exact hat
      obtain ⟨left, hleft, hcloses, hskip⟩ := stopsAt_skipAttribute hl h hbare hat
      have hlt : left.length < front.length := by
        have hlt : (skipAttribute (front ++ [l])).length < (front ++ [l]).length :=
          length_skipAttribute_lt (by rw [hat']; decide)
        rw [hskip] at hlt
        simpa using hlt
      obtain ⟨left', hleft', hcloses', hskip'⟩ :=
        ih left.length (hn ▸ hlt) hcloses (hbare.suffix hleft) rfl
      refine ⟨left', hleft'.trans hleft, hcloses', fun rest => ?_⟩
      rw [skipAttributes_of_eq (hat' rest), hskip, hskip']
    · refine ⟨front, List.suffix_rfl, h, fun rest => skipAttributes_of_ne ?_⟩
      cases front with
      | nil => exact hl.ne rfl rfl
      | cons a front => exact hat

/-! ## Modifiers -/

theorem skipModifiers_of_atModifier (h : atModifier ls = true) :
    skipModifiers ls =
      skipModifiers (ls.drop (if atModifierDetail (ls.drop 1) then 4 else 1)) := by
  have hskip : skipModifier? ls =
      some (ls.drop (if atModifierDetail (ls.drop 1) then 4 else 1)) := by
    rw [skipModifier?, if_pos h]
  have hlt := shortens_skipModifier? ls _ hskip
  rw [skipModifiers, skipMany_congr shortens_skipModifier? (Nat.le_refl _) (Nat.le_succ _),
    skipMany, hskip]
  exact skipMany_congr shortens_skipModifier? (Nat.le_of_lt hlt) (Nat.le_refl _)

theorem atModifierWord_wall (hl : l.IsWall) : atModifierWord (l :: rest) = false := by
  simp [atModifierWord, hl.ne (k := .ident) rfl rfl]

theorem atModifier_wall (hl : l.IsWall) : atModifier (l :: rest) = false := by
  unfold atModifier
  split
  · next h => exact absurd h (hl.ne rfl rfl)
  · next h => exact absurd h (hl.ne rfl rfl)
  · exact atModifierWord_wall hl

theorem blind_atModifier (hl : l.IsWall) : Blind atModifier front l := by
  intro rest rest'
  match front with
  | [] => exact (atModifier_wall hl).trans (atModifier_wall hl).symm
  | [x] =>
    simp only [atModifier, List.cons_append, List.nil_append, headKind, List.drop_one,
      List.tail_cons, classModifies, atModifierWord_wall hl, Bool.false_and]
    rfl
  | [x, y] =>
    simp only [atModifier, List.cons_append, List.nil_append, headKind, List.drop_one,
      List.tail_cons, classModifies, atModifierWord_wall hl]
    rfl
  | x :: y :: z :: front => rfl

theorem blind_atModifierDetail (h : Closes front 0 0) (hl : l.IsWall) :
    Blind atModifierDetail front l := by
  intro rest rest'
  match front, h with
  | [], _ =>
    have hk : ∀ rest, atModifierDetail (l :: rest) = false := fun rest => by
      simp [atModifierDetail, headKind, hl.ne (k := .lParen) rfl rfl]
    exact (hk rest).trans (hk rest').symm
  | [x], _ =>
    have hk : ∀ rest, atModifierDetail (x :: l :: rest) = false := fun rest => by
      simp [atModifierDetail, headKind, hl.ne (k := .ident) rfl rfl]
    exact (hk rest).trans (hk rest').symm
  | [x, y], _ => rfl
  | x :: y :: z :: front, _ => rfl

/-- The detail of a modifier is closed before the wall. -/
theorem length_of_detail (h : Closes front 0 0) (hl : l.IsWall)
    (hd : atModifierDetail (front ++ [l]) = true) : 3 ≤ front.length := by
  simp only [atModifierDetail, Bool.and_eq_true, beq_iff_eq] at hd
  obtain ⟨⟨ho, hn⟩, hc⟩ := hd
  rcases front with _ | ⟨x, _ | ⟨y, _ | ⟨z, front⟩⟩⟩
  · exact absurd ho (hl.ne rfl rfl)
  · exact absurd hn (hl.ne rfl rfl)
  · have hx : x.kind = .lParen := ho
    have hy : y.kind = .ident := hn
    cases h with
    | opener _ rest =>
      cases rest with
      | opener hy' _ => rw [hy] at hy'; cases hy'
      | closer hy' _ _ => rw [hy] at hy'; cases hy'
      | plain _ _ rest => cases rest with | nil h => omega
    | closer hx' _ _ => rw [hx] at hx'; cases hx'
    | plain hx' _ _ => rw [hx] at hx'; cases hx'
  · simp

theorem stopsAt_skipModifiers (hl : l.IsWall) (h : Closes front 0 0) :
    StopsAt skipModifiers front l := by
  induction hn : front.length using Nat.strongRecOn generalizing front with
  | ind n ih =>
    have hsame : ∀ rest, atModifier (front ++ l :: rest) = atModifier (front ++ [l]) :=
      fun rest => blind_atModifier hl rest []
    cases hat : atModifier (front ++ [l]) with
    | false =>
      exact ⟨front, List.suffix_rfl, h,
        fun rest => skipModifiers_of_not ((hsame rest).trans hat)⟩
    | true =>
      match front, h, hn, hsame, hat with
      | [], _, _, _, hat => exact absurd hat (by simp [atModifier_wall hl])
      | x :: front, h, hn, hsame, hat =>
        have htail : Closes front 0 0 := closes_suffix h (List.suffix_cons x front)
        have hdetail : ∀ rest, atModifierDetail (front ++ l :: rest) =
            atModifierDetail (front ++ [l]) := fun rest =>
          blind_atModifierDetail htail hl rest []
        have hstep : ∀ rest, skipModifiers (x :: front ++ l :: rest) =
            skipModifiers ((x :: front ++ l :: rest).drop
              (if atModifierDetail (front ++ [l]) then 4 else 1)) := by
          intro rest
          rw [skipModifiers_of_atModifier ((hsame rest).trans hat), ← hdetail rest]
          rfl
        -- the wall is no part of a modifier or its detail
        have hle : (if atModifierDetail (front ++ [l]) then 4 else 1) ≤ (x :: front).length := by
          split
          · next hd => exact Nat.succ_le_succ (length_of_detail htail hl hd)
          · simp
        obtain ⟨left, hleft, hcloses, hdrop⟩ := stopsAt_drop hle h (l := l)
        have hlt : left.length < n := by
          have hd := hdrop []
          have hlen := congrArg List.length hd
          rw [List.length_drop, List.length_append, List.length_append] at hlen
          have hpos : 1 ≤ (if atModifierDetail (front ++ [l]) then 4 else 1) := by split <;> omega
          simp only [List.length_cons, List.length_nil] at hlen hle hn
          omega
        obtain ⟨left', hleft', hcloses', hskip⟩ := ih left.length hlt hcloses rfl
        refine ⟨left', hleft'.trans hleft, hcloses', fun rest => ?_⟩
        rw [hstep, hdrop, hskip]

/-! ## What is introduced -/

/-- What is declared before a wall does not depend on what comes behind the wall. -/
theorem blind_declaration? {scope : Scope} (hl : l.IsWall) (h : Closes front 0 0)
    (hbare : Bare front l) : Blind (declaration? scope) front l := by
  have hskip : StopsAt (fun ls => skipModifiers (skipAttributes ls)) front l :=
    (stopsAt_skipAttributes hl h hbare).comp fun _ _ hcloses => stopsAt_skipModifiers hl hcloses
  obtain ⟨left, -, -, hleft⟩ := hskip
  intro rest rest'
  have hleft' : ∀ rest, skipModifiers (skipAttributes (front ++ l :: rest)) = left ++ l :: rest :=
    hleft
  rw [declaration?, declaration?, hleft', hleft', blind_headKind rest rest',
    blind_spells rest rest']
  cases left with
  | nil =>
    have hident : headKind ([] ++ l :: rest') ≠ .ident := hl.ne rfl rfl
    split <;> first | rfl | (next hk => exact absurd hk hident)
  | cons x left =>
    rw [List.cons_append, List.cons_append, List.drop_one, List.drop_one, List.tail_cons,
      List.tail_cons, blind_headKind rest rest']

/-- Whether an accessor comes before a wall does not depend on what comes behind the wall. -/
theorem blind_atAccessor (hl : l.IsWall) (h : Closes front 0 0) (hbare : Bare front l) :
    Blind atAccessor front l := by
  obtain ⟨ms, -, -, hms⟩ := stopsAt_skipAttributes hl h hbare
  intro rest rest'
  rw [atAccessor, atAccessor, hms, hms]
  have hdrop : ∀ rest, (ms ++ l :: rest).dropWhile
      (fun l => l.kind == .ident && accessorModifiers.contains l.text) =
      ms.dropWhile (fun l => l.kind == .ident && accessorModifiers.contains l.text) ++
        l :: rest := by
    intro rest
    rw [List.dropWhile_append]
    split
    · next hnil =>
      rw [List.isEmpty_iff.mp hnil, List.nil_append, List.dropWhile_cons_of_neg]
      simp [hl.ne (k := .ident) rfl rfl]
    · rfl
  rw [hdrop, hdrop]
  -- behind the modifiers comes a word of the front part, or the wall, which is none
  generalize ms.dropWhile _ = left
  cases left with
  | nil =>
    have hident : l.kind ≠ .ident := hl.ne rfl rfl
    have hno : ∀ rest, (headKind ([] ++ l :: rest) == .kwInit ||
        atWordOf accessorNames ([] ++ l :: rest)) = false := fun rest => by
      simp [headKind, atWordOf, hident, hl.ne (k := .kwInit) rfl rfl]
    simp only [hno, Bool.false_and]
  | cons x left =>
    simp only [List.cons_append, List.drop_one, List.tail_cons, blind_headKind rest rest',
      blind_atWordOf rest rest', blind_spells rest rest', headKind_cons]
    rfl

/-- Whether observers come, in a block that is closed, does not depend on what comes behind it. -/
theorem blind_atObservers {o : Lexeme} (hl : l.IsWall) (h : Closes front 0 0)
    (hbare : Bare front l) : Blind atObservers (o :: front) l := by
  obtain ⟨left, -, -, hleft⟩ := stopsAt_skipAttributes hl h hbare
  intro rest rest'
  simp only [atObservers, List.cons_append, List.drop_one, List.tail_cons, headKind_cons, hleft,
    blind_spells rest rest']

/-! ## Closures -/

theorem atSignatureEnd_wall (hl : l.IsWall) (h : Closes front 0 0) (hbare : Bare front l)
    {total n : Nat} (rest rest' : List Lexeme) :
    atSignatureEnd (total + rest.length) n (front ++ l :: rest) =
      atSignatureEnd (total + rest'.length) n (front ++ l :: rest') := by
  induction n generalizing front with
  | zero => rfl
  | succ n ih =>
    -- how far the search has come does not depend on what is behind the wall
    have hsearched : total + rest.length - (front ++ l :: rest).length =
        total + rest'.length - (front ++ l :: rest').length := by
      simp only [List.length_append, List.length_cons]
      omega
    rw [atSignatureEnd, atSignatureEnd, hsearched, blind_headKind rest rest']
    have hskip : ∀ {skip : List Lexeme → List Lexeme}, StopsAt skip front l →
        atSignatureEnd (total + rest.length) n (skip (front ++ l :: rest)) =
          atSignatureEnd (total + rest'.length) n (skip (front ++ l :: rest')) := by
      rintro skip ⟨left, hleft, hcloses, hskip⟩
      rw [hskip, hskip]
      exact ih hcloses (hbare.suffix hleft)
    cases front with
    | nil =>
      have hk : ∀ k : TokenKind, k.isCloser = false → k.isDirective = false →
          headKind ([] ++ l :: rest') ≠ k := fun k => hl.ne
      have hsig : isSignatureKind l.kind = false := by
        rw [Lexeme.IsWall] at hl
        revert hl
        cases l.kind <;> decide
      split
      · rfl
      · split
        · rfl
        · next h => exact absurd h (hk _ rfl rfl)
        · next h => exact absurd h (hk _ rfl rfl)
        · next h => exact absurd h (hk _ rfl rfl)
        · simp only [List.nil_append, headKind_cons, hsig, Bool.false_and]
    | cons x front =>
      have hne : x :: front ≠ [] := List.cons_ne_nil x front
      have hbalanced : StopsAt (skipBalanced 0) (x :: front) l := by
        obtain ⟨left, hleft, hcloses, hskip⟩ := exists_skipBalanced h (.inr hne)
        exact ⟨left, hleft, hcloses, fun rest => hskip (l :: rest)⟩
      split
      · rfl
      · split
        · rfl
        · exact hskip hbalanced
        · exact hskip hbalanced
        · next hat => exact hskip (stopsAt_skipAttribute hl h hbare hat)
        · rw [hskip (stopsAt_drop (by simp) h)]

theorem stopsAt_skipCaptures (hl : l.IsWall) (h : Closes front 0 0) (hbare : Bare front l) :
    StopsAt skipCaptures front l := by
  refine (stopsAt_skipAttributes hl h hbare).comp
    (g := fun inner => if headKind inner == .lBracket then skipBalanced 0 inner else inner)
    fun left hleft hcloses => ?_
  refine .ite (fun rest rest' => by rw [blind_headKind rest rest']) (fun hk => ?_)
    fun _ => stopsAt_id hcloses
  have hne : left ≠ [] := by
    rintro rfl
    exact hl.ne (k := .lBracket) rfl rfl (eq_of_beq hk)
  obtain ⟨left', hleft', hcloses', hskip⟩ := exists_skipBalanced hcloses (.inr hne)
  exact ⟨left', hleft', hcloses', fun rest => hskip (l :: rest)⟩

/-- Whether a closure begins with a signature does not depend on what comes behind it. -/
theorem blind_atClosureSignature (hl : l.IsWall) (h : Closes front 0 0) (hbare : Bare front l) :
    Blind atClosureSignature front l := by
  obtain ⟨left, hleft, hcloses, hskip⟩ := stopsAt_skipCaptures hl h hbare
  intro rest rest'
  have hlength : ∀ rest, (front ++ l :: rest).length = front.length + 1 + rest.length := by
    intro rest
    simp only [List.length_append, List.length_cons]
    omega
  rw [atClosureSignature, atClosureSignature, hskip, hskip, hlength, hlength]
  exact atSignatureEnd_wall hl hcloses (hbare.suffix hleft) rest rest'

/-! ## Front parts -/

/-- As long as something is left of a front part, `skip` does the same on it as on the whole. -/
def Ends (skip : List Lexeme → List Lexeme) : Prop :=
  ∀ front rest, rest.length < (skip (front ++ rest)).length →
    skip (front ++ rest) = skip front ++ rest

theorem ends_skipBalanced : Ends (skipBalanced depth) := by
  intro front
  induction front generalizing depth with
  | nil =>
    intro rest h
    exact absurd h (Nat.not_lt_of_le (length_skipBalanced_le depth rest))
  | cons l front ih =>
    intro rest h
    rw [List.cons_append, skipBalanced] at h ⊢
    rw [skipBalanced]
    split at h
    · next heof => rw [if_pos heof, if_pos heof, List.cons_append]
    · next heof =>
      rw [if_neg heof, if_neg heof]
      dsimp only at h ⊢
      split at h
      · next hzero => rw [if_pos hzero, if_pos hzero]
      · next hzero =>
        rw [if_neg hzero, if_neg hzero]
        exact ih rest h

theorem ends_skipAngles : Ends (skipAngles depth) := by
  intro front
  induction front generalizing depth with
  | nil =>
    intro rest h
    exact absurd h (Nat.not_lt_of_le (length_skipAngles_le depth rest))
  | cons l front ih =>
    intro rest h
    rw [List.cons_append, skipAngles] at h ⊢
    rw [skipAngles]
    split at h
    · next hstop => rw [if_pos hstop, if_pos hstop, List.cons_append]
    · next hstop =>
      rw [if_neg hstop, if_neg hstop]
      generalize (if l.kind == .lt then depth + 1 else if l.kind == .gt then depth - 1 else depth) =
        d at h ⊢
      dsimp only at h ⊢
      split at h
      · next hzero => rw [if_pos hzero, if_pos hzero]
      · next hzero =>
        rw [if_neg hzero, if_neg hzero]
        exact ih rest h

theorem ends_skipMembers : Ends skipMembers := by
  intro front
  induction hn : front.length using Nat.strongRecOn generalizing front with
  | ind n ih =>
    intro rest h
    match front, hn with
    | [], _ => exact absurd h (Nat.not_lt_of_le (length_skipMembers_le rest))
    | [d], _ =>
      -- a point that is the last lexeme begins no member
      cases rest with
      | nil => rfl
      | cons x rest =>
        rw [List.cons_append, List.nil_append, skipMembers] at h ⊢
        split at h
        · have hle := length_skipMembers_le rest
          rw [List.length_cons] at h
          omega
        · next hnot =>
          rw [if_neg hnot]
          rfl
    | d :: x :: front, hn =>
      rw [List.cons_append, List.cons_append, skipMembers] at h ⊢
      rw [skipMembers]
      split at h
      · next hmember =>
        rw [if_pos hmember, if_pos hmember]
        refine ih front.length ?_ front rfl rest h
        rw [← hn, List.length_cons, List.length_cons]
        omega
      · next hmember => rw [if_neg hmember, if_neg hmember, List.cons_append, List.cons_append]

theorem Ends.comp {f g : List Lexeme → List Lexeme} (hf : Ends f) (hg : Ends g)
    (hle : ∀ ls, (g ls).length ≤ ls.length) : Ends fun ls => g (f ls) := by
  intro front rest h
  have heq := hf front rest (Nat.lt_of_lt_of_le h (hle _))
  dsimp only at h ⊢
  rw [heq] at h ⊢
  exact hg (f front) rest h

/-- A choice that looks at the next lexeme. -/
theorem Ends.ite {f g : List Lexeme → List Lexeme} {p : List Lexeme → Bool} (hf : Ends f)
    (hg : Ends g) (hfle : ∀ ls, (f ls).length ≤ ls.length) (hgle : ∀ ls, (g ls).length ≤ ls.length)
    (hp : ∀ l front rest, p (l :: (front ++ rest)) = p (l :: front)) :
    Ends fun ls => if p ls then f ls else g ls := by
  intro front rest h
  cases front with
  | nil =>
    have hle : (if p rest then f rest else g rest).length ≤ rest.length := by
      split
      · exact hfle rest
      · exact hgle rest
    exact absurd h (Nat.not_lt_of_le hle)
  | cons l front =>
    dsimp only at h ⊢
    rw [List.cons_append, hp] at h ⊢
    split at h
    · next hc =>
      rw [if_pos hc, if_pos hc]
      exact hf (l :: front) rest h
    · next hc =>
      rw [if_neg hc, if_neg hc]
      exact hg (l :: front) rest h

theorem ends_id : Ends fun ls => ls := fun _ _ _ => rfl

theorem ends_drop_one : Ends (List.drop 1) := by
  intro front rest h
  cases front with
  | nil =>
    simp only [List.nil_append, List.length_drop] at h
    omega
  | cons l front => rfl

theorem ends_skipAttribute : Ends skipAttribute := by
  have hmembers : ∀ ls : List Lexeme, (skipMembers (ls.drop 1)).length ≤ ls.length := fun ls =>
    Nat.le_trans (length_skipMembers_le _) (by simp)
  have hname : Ends fun ls => if (headKind ls).isNameLike then skipMembers (ls.drop 1) else ls :=
    .ite (p := fun ls => (headKind ls).isNameLike) (f := fun ls => skipMembers (ls.drop 1))
      (ends_drop_one.comp ends_skipMembers length_skipMembers_le) ends_id hmembers
      (fun _ => Nat.le_refl _) fun _ _ _ => rfl
  have hangles : Ends fun ls => if seesJoined .lt ls then skipAngles 0 ls else ls :=
    .ite ends_skipAngles ends_id (length_skipAngles_le 0) (fun _ => Nat.le_refl _)
      fun _ _ _ => rfl
  have hparens : Ends fun ls => if seesJoined .lParen ls then skipBalanced 0 ls else ls :=
    .ite ends_skipBalanced ends_id (length_skipBalanced_le 0) (fun _ => Nat.le_refl _)
      fun _ _ _ => rfl
  -- the name, generic arguments and arguments in parentheses come one behind the other
  have hnamed := ends_drop_one.comp hname fun ls => by
    split
    · exact hmembers ls
    · exact Nat.le_refl _
  have hclauses := hnamed.comp hangles fun ls => by
    split
    · exact length_skipAngles_le 0 ls
    · exact Nat.le_refl _
  exact hclauses.comp hparens fun ls => by
    split
    · exact length_skipBalanced_le 0 ls
    · exact Nat.le_refl _

theorem length_skipAttributes_le (ls : List Lexeme) : (skipAttributes ls).length ≤ ls.length :=
  length_skipMany_le shortens_skipAttribute? _ _

theorem length_skipModifiers_le (ls : List Lexeme) : (skipModifiers ls).length ≤ ls.length :=
  length_skipMany_le shortens_skipModifier? _ _

theorem ends_skipAttributes : Ends skipAttributes := by
  intro front
  induction hn : front.length using Nat.strongRecOn generalizing front with
  | ind n ih =>
    intro rest h
    cases front with
    | nil => exact absurd h (Nat.not_lt_of_le (length_skipAttributes_le rest))
    | cons l front =>
      by_cases hat : l.kind = .atSign
      · have hhead : ∀ ms, headKind (l :: ms) = .atSign := fun _ => hat
        rw [List.cons_append, skipAttributes_of_eq (hhead _)] at h ⊢
        rw [skipAttributes_of_eq (hhead front)]
        have heq : skipAttribute (l :: front ++ rest) = skipAttribute (l :: front) ++ rest :=
          ends_skipAttribute (l :: front) rest
            (Nat.lt_of_lt_of_le h (length_skipAttributes_le _))
        have hlt : (skipAttribute (l :: front)).length < (l :: front).length :=
          length_skipAttribute_lt (by rw [hhead]; decide)
        rw [List.cons_append] at heq
        rw [heq] at h ⊢
        exact ih _ (hn ▸ hlt) (skipAttribute (l :: front)) rfl rest h
      · have hhead : ∀ ms, headKind (l :: ms) ≠ .atSign := fun _ => hat
        rw [List.cons_append, skipAttributes_of_ne (hhead _), skipAttributes_of_ne (hhead _),
          List.cons_append]

/-- What a `class` modifies is told by the next lexeme alone, or by the next two. -/
theorem classModifies_cons (x : Lexeme) : (∀ ls, classModifies (x :: ls) = true) ∨
    ∀ ls, classModifies (x :: ls) =
      (atModifierWord [x] && ((headKind ls).isDeclKeyword || atModifierWord ls)) := by
  simp only [classModifies, headKind_cons, List.drop_one, List.tail_cons]
  split
  all_goals first | exact .inl fun _ => rfl | exact .inr fun _ => rfl

theorem classModifies_append (h : classModifies front = true) :
    classModifies (front ++ rest) = true := by
  match front, h with
  | [], h => exact absurd h (by decide)
  | [x], h =>
    rcases classModifies_cons x with hx | hx
    · exact hx rest
    · rw [hx [], Bool.and_eq_true] at h
      exact absurd h.2 (by decide)
  | x :: y :: front, h => exact h

theorem atModifier_of_atModifierWord (h : atModifierWord ls = true) : atModifier ls = true := by
  cases ls with
  | nil => cases h
  | cons l ls =>
    have hl : l.kind = .ident := eq_of_beq (Bool.and_eq_true_iff.mp h).1
    rw [atModifier, headKind_cons, hl]
    exact h

/-- A modifier of a front part is one of the whole. -/
theorem atModifier_append (h : atModifier front = true) : atModifier (front ++ rest) = true := by
  cases front with
  | nil => exact absurd h (by decide)
  | cons x front =>
    unfold atModifier at h ⊢
    rw [List.cons_append, headKind_cons] at *
    split at h
    · rfl
    · exact classModifies_append h
    · exact h

theorem atModifierDetail_append (h : 3 ≤ front.length ∨ atModifierDetail front = true) :
    atModifierDetail (front ++ rest) = atModifierDetail front := by
  match front, h with
  | [], h => exact absurd h (by decide)
  | [x], h => exact absurd h (by simp [atModifierDetail, headKind])
  | [x, y], h => exact absurd h (by simp [atModifierDetail, headKind])
  | x :: y :: z :: front, _ => rfl

/-- Number of lexemes of the modifier that `ls` begins with. -/
def modifierLength (ls : List Lexeme) : Nat := if atModifierDetail (ls.drop 1) then 4 else 1

theorem modifierLength_pos (ls : List Lexeme) : 0 < modifierLength ls := by
  unfold modifierLength
  split <;> omega

theorem length_skipModifiers_le_drop (h : atModifier ls = true) :
    (skipModifiers ls).length ≤ ls.length - modifierLength ls := by
  rw [skipModifiers_of_atModifier h, modifierLength, ← List.length_drop]
  exact length_skipModifiers_le _

/-- As long as something is left behind the modifiers of a front part, each of them is one on the
    whole, with the same detail. -/
theorem atModifier_front (h : rest.length < (skipModifiers (front ++ rest)).length) :
    atModifier (front ++ rest) = atModifier front ∧
      (atModifier front = true → modifierLength (front ++ rest) = modifierLength front ∧
        modifierLength front < front.length) := by
  cases front with
  | nil => exact absurd h (Nat.not_lt_of_le (length_skipModifiers_le rest))
  | cons x front =>
  cases hat : atModifier (x :: front ++ rest) with
  | false =>
    have hnot : atModifier (x :: front) = false :=
      Bool.eq_false_iff.mpr fun h' => by rw [atModifier_append h'] at hat; cases hat
    exact ⟨hnot.symm, fun h' => by rw [hnot] at h'; cases h'⟩
  | true =>
    have hle := length_skipModifiers_le_drop hat
    have hlt : modifierLength (x :: front ++ rest) < (x :: front).length := by
      rw [List.length_append] at hle
      omega
    have hdetail : atModifierDetail (front ++ rest) = atModifierDetail front := by
      cases hd : atModifierDetail (front ++ rest) with
      | true =>
        have hfour : modifierLength (x :: front ++ rest) = 4 := if_pos hd
        rw [← hd]
        refine atModifierDetail_append (.inl ?_)
        rw [hfour, List.length_cons] at hlt
        omega
      | false =>
        refine (Bool.eq_false_iff.mpr fun h' => ?_).symm
        rw [atModifierDetail_append (.inr h'), h'] at hd
        cases hd
    have hlength : modifierLength (x :: front ++ rest) = modifierLength (x :: front) :=
      congrArg (fun b : Bool => if b then 4 else 1) hdetail
    refine ⟨Eq.symm ?_, fun _ => ⟨hlength, hlength ▸ hlt⟩⟩
    unfold atModifier at hat ⊢
    rw [List.cons_append, headKind_cons] at hat
    rw [headKind_cons]
    split at hat
    · rfl
    · next hclass =>
      have hword : atModifier (x :: front ++ rest) = true := by
        rw [List.cons_append, atModifier, headKind_cons, hclass]
        exact hat
      rcases front with _ | ⟨y, _ | ⟨z, front⟩⟩
      · have hpos := modifierLength_pos ([x] ++ rest)
        rw [List.length_singleton] at hlt
        omega
      · rcases classModifies_cons y with hy | hy
        · exact hy []
        · -- what follows is a modifier behind which nothing is left of the front part
          have hmodifier : atModifierWord (y :: rest) = true := by
            have hboth := (hy rest).symm.trans hat
            exact (Bool.and_eq_true_iff.mp hboth).1
          have hone : modifierLength (x :: [y] ++ rest) = 1 := by
            have hpos := modifierLength_pos (x :: [y] ++ rest)
            rw [List.length_cons, List.length_singleton] at hlt
            omega
          have hskip : skipModifiers (x :: [y] ++ rest) = skipModifiers (y :: rest) := by
            rw [skipModifiers_of_atModifier hword]
            show skipModifiers ((x :: [y] ++ rest).drop (modifierLength (x :: [y] ++ rest))) = _
            rw [hone]
            rfl
          have hle' := length_skipModifiers_le_drop (atModifier_of_atModifierWord hmodifier)
          have hpos := modifierLength_pos (y :: rest)
          rw [hskip] at h
          rw [List.length_cons] at hle'
          omega
      · exact hat
    · exact hat

theorem ends_skipModifiers : Ends skipModifiers := by
  intro front
  induction hn : front.length using Nat.strongRecOn generalizing front with
  | ind n ih =>
    intro rest h
    obtain ⟨hsame, hlength⟩ := atModifier_front h
    cases hat : atModifier front with
    | false => rw [skipModifiers_of_not (hsame.trans hat), skipModifiers_of_not hat]
    | true =>
      obtain ⟨heq, hlt⟩ := hlength hat
      have hdrop : (front ++ rest).drop (modifierLength front) =
          front.drop (modifierLength front) ++ rest :=
        List.drop_append_of_le_length (Nat.le_of_lt hlt)
      have hwhole : skipModifiers (front ++ rest) =
          skipModifiers (front.drop (modifierLength front) ++ rest) := by
        rw [← hdrop, ← heq]
        exact skipModifiers_of_atModifier (hsame.trans hat)
      have hpos := modifierLength_pos front
      have hfront : skipModifiers front = skipModifiers (front.drop (modifierLength front)) :=
        skipModifiers_of_atModifier hat
      rw [hwhole] at h ⊢
      rw [hfront]
      refine ih _ ?_ _ rfl rest h
      rw [List.length_drop]
      omega

/-- What is declared on a front part is declared on the whole, as long as the word that introduces
    it is left; for an actor, the name behind it as well. -/
theorem declaration?_front {scope : Scope}
    (h : rest.length < (skipModifiers (skipAttributes (front ++ rest))).length)
    (hactor : headKind (skipModifiers (skipAttributes (front ++ rest))) = .ident →
      rest.length + 1 < (skipModifiers (skipAttributes (front ++ rest))).length) :
    declaration? scope front = declaration? scope (front ++ rest) := by
  have hskip : skipModifiers (skipAttributes (front ++ rest)) =
      skipModifiers (skipAttributes front) ++ rest :=
    (ends_skipAttributes.comp ends_skipModifiers length_skipModifiers_le) front rest h
  rw [hskip, List.length_append] at h hactor
  rw [declaration?, declaration?, hskip]
  generalize skipModifiers (skipAttributes front) = left at h hactor ⊢
  rcases left with _ | ⟨x, _ | ⟨y, left⟩⟩
  · exact absurd h (by simp)
  · have hx : x.kind ≠ .ident := fun hx => by
      have hlt := hactor hx
      rw [List.length_singleton] at hlt
      omega
    rw [List.cons_append, headKind_cons, headKind_cons]
    split <;> first | rfl | (next hk => exact absurd hk hx)
  · rfl

/-! ## What is left -/

theorem skipBalanced_suffix (depth : Nat) (ls : List Lexeme) : skipBalanced depth ls <:+ ls := by
  induction ls generalizing depth with
  | nil => exact List.suffix_rfl
  | cons l ls ih =>
    rw [skipBalanced]
    split
    · exact List.suffix_rfl
    · dsimp only
      split
      · exact List.suffix_cons l ls
      · exact (ih _).trans (List.suffix_cons l ls)

theorem skipAngles_suffix (depth : Nat) (ls : List Lexeme) : skipAngles depth ls <:+ ls := by
  induction ls generalizing depth with
  | nil => exact List.suffix_rfl
  | cons l ls ih =>
    rw [skipAngles]
    split
    · exact List.suffix_rfl
    · generalize (if l.kind == .lt then depth + 1
        else if l.kind == .gt then depth - 1 else depth) = inside
      dsimp only
      split
      · exact List.suffix_cons l ls
      · exact (ih _).trans (List.suffix_cons l ls)

theorem skipMembers_suffix (ls : List Lexeme) : skipMembers ls <:+ ls := by
  induction ls using skipMembers.induct with
  | case1 d n ls h ih =>
    rw [skipMembers, if_pos h]
    exact ih.trans ((List.suffix_cons n ls).trans (List.suffix_cons d _))
  | case2 d n ls h =>
    rw [skipMembers, if_neg h]
  | case3 ls h =>
    have hskip : skipMembers ls = ls := by
      rw [skipMembers]
      exact h
    rw [hskip]

theorem skipAttribute_suffix (ls : List Lexeme) : skipAttribute ls <:+ ls := by
  have hname : (if (headKind (ls.drop 1)).isNameLike then skipMembers ((ls.drop 1).drop 1)
      else ls.drop 1) <:+ ls := by
    split
    · exact (skipMembers_suffix _).trans ((List.drop_suffix 1 _).trans (List.drop_suffix 1 ls))
    · exact List.drop_suffix 1 ls
  have hangles : ∀ ms : List Lexeme, ms <:+ ls →
      (if seesJoined .lt ms then skipAngles 0 ms else ms) <:+ ls := by
    intro ms hms
    split
    · exact (skipAngles_suffix 0 ms).trans hms
    · exact hms
  have hparens : ∀ ms : List Lexeme, ms <:+ ls →
      (if seesJoined .lParen ms then skipBalanced 0 ms else ms) <:+ ls := by
    intro ms hms
    split
    · exact (skipBalanced_suffix 0 ms).trans hms
    · exact hms
  exact hparens _ (hangles _ hname)

/-- Attributes that are plain, one by one, are so in a row. -/
theorem plainAttributes_of_forall
    (h : ∀ l rest, l :: rest <:+ ls → l.kind = .atSign → PlainAttribute (l :: rest)) :
    PlainAttributes ls := by
  induction hn : ls.length using Nat.strongRecOn generalizing ls with
  | ind n ih =>
    by_cases hat : headKind ls = .atSign
    · have hplain : PlainAttribute ls := by
        cases ls with
        | nil => cases hat
        | cons l rest => exact h l rest List.suffix_rfl hat
      refine .cons hplain (ih _ (hn ▸ length_skipAttribute_lt (by rw [hat]; decide)) ?_ rfl)
      exact fun l rest hl => h l rest (hl.trans (skipAttribute_suffix ls))
    · exact .nil hat

/-! ## Accessors -/

/-- Whether a lexeme modifies an accessor. -/
def modifiesAccessor (l : Lexeme) : Bool := l.kind == .ident && accessorModifiers.contains l.text

/-- Whether the name of an accessor comes next. -/
def atAccessorName (ls : List Lexeme) : Bool := headKind ls == .kwInit || atWordOf accessorNames ls

theorem headKind_of_atAccessorName (h : atAccessorName ls = true) :
    headKind ls = .kwInit ∨ headKind ls = .ident := by
  rw [atAccessorName, Bool.or_eq_true, beq_iff_eq] at h
  refine h.imp_right fun hword => ?_
  cases ls with
  | nil => cases hword
  | cons l ls => exact eq_of_beq (Bool.and_eq_true_iff.mp hword).1

/-- The name of an accessor modifies nothing. -/
theorem not_atModifier_of_atAccessorName (h : atAccessorName ls = true) :
    atModifier ls = false := by
  have hdisjoint : ∀ w ∈ accessorNames, modifierWords.contains w = false := by decide
  cases ls with
  | nil => cases h
  | cons l ls =>
    rw [atAccessorName, headKind_cons, Bool.or_eq_true, beq_iff_eq] at h
    rcases h with hinit | hword
    · rw [atModifier, headKind_cons, hinit, atModifierWord, hinit]
      rfl
    · obtain ⟨hident, hname⟩ := Bool.and_eq_true_iff.mp hword
      rw [atModifier, headKind_cons, eq_of_beq hident, atModifierWord,
        hdisjoint _ (List.contains_iff_mem.mp hname), Bool.and_false]

/-- A modifier of an accessor is one of a declaration. -/
theorem atModifier_of_modifiesAccessor {l : Lexeme} (h : modifiesAccessor l = true) :
    atModifier (l :: ls) = true := by
  have hall : ∀ w ∈ accessorModifiers, modifierWords.contains w = true := by decide
  obtain ⟨hident, hword⟩ := Bool.and_eq_true_iff.mp h
  refine atModifier_of_atModifierWord ?_
  rw [atModifierWord, hident, hall _ (List.contains_iff_mem.mp hword)]
  rfl

/-- Behind the modifiers of an accessor stands its name. -/
theorem skipModifiers_of_accessor (h : atAccessorName (ls.dropWhile modifiesAccessor) = true) :
    skipModifiers ls = ls.dropWhile modifiesAccessor := by
  induction ls with
  | nil => cases h
  | cons x ls ih =>
    cases hx : modifiesAccessor x with
    | true =>
      rw [List.dropWhile_cons_of_pos hx] at h ⊢
      -- what comes next is one more modifier or the name, so there is no detail
      have hnodetail : atModifierDetail ls = false := by
        have hhead : headKind ls ≠ .lParen := by
          cases ls with
          | nil => decide
          | cons y ls =>
            cases hy : modifiesAccessor y with
            | true =>
              rw [headKind_cons, eq_of_beq (Bool.and_eq_true_iff.mp hy).1]
              decide
            | false =>
              rw [List.dropWhile_cons_of_neg (by rw [hy]; decide)] at h
              rcases headKind_of_atAccessorName h with hk | hk <;> rw [hk] <;> decide
        rw [atModifierDetail, beq_false_of_ne hhead, Bool.false_and, Bool.false_and]
      rw [skipModifiers_of_atModifier (atModifier_of_modifiesAccessor hx), List.drop_one,
        List.tail_cons, hnodetail]
      exact ih h
    | false =>
      rw [List.dropWhile_cons_of_neg (by rw [hx]; decide)] at h ⊢
      exact skipModifiers_of_not (not_atModifier_of_atAccessorName h)

/-- Behind the attributes and modifiers of an accessor stands its name. -/
theorem headKind_of_atAccessor (h : atAccessor ls = true) :
    headKind (skipModifiers (skipAttributes ls)) = .kwInit ∨
      headKind (skipModifiers (skipAttributes ls)) = .ident := by
  have hname : atAccessorName ((skipAttributes ls).dropWhile modifiesAccessor) = true :=
    (Bool.and_eq_true_iff.mp h).1
  rw [skipModifiers_of_accessor hname]
  exact headKind_of_atAccessorName hname

/-! ## Function tails -/

/-- Without thrown types, effects are words. -/
theorem skipEffects_drop (h : Untyped ls) (hat : atEffect ls = true) :
    skipEffects ls = skipEffects (ls.drop 1) := by
  cases ls with
  | nil => cases hat
  | cons l ls =>
    refine skipEffects_of_some ?_
    rw [skipEffect?]
    by_cases hthrows : atThrows (l :: ls) = true
    · rw [if_pos hthrows]
      show some (if seesJoined .lParen ls then _ else ls) = _
      rw [h l ls List.suffix_rfl hthrows, if_neg Bool.false_ne_true]
      rfl
    · rw [if_neg hthrows, if_pos hat]

theorem skipEffects_eq (h : Untyped ls) :
    skipEffects ls = ls.dropWhile fun l => atEffect [l] := by
  induction ls with
  | nil => rfl
  | cons l ls ih =>
    have heffect : atEffect (l :: ls) = atEffect [l] := rfl
    cases hat : atEffect [l] with
    | false =>
      rw [skipEffects_of_none (skipEffect?_of_not_atEffect (heffect.trans hat)),
        List.dropWhile_cons, hat, if_neg Bool.false_ne_true]
    | true =>
      rw [List.dropWhile_cons, hat, if_pos rfl, skipEffects_drop h (heffect.trans hat)]
      exact ih fun x rest hx => h x rest (hx.trans (List.suffix_cons l ls))

theorem untyped_of_append (h : Untyped (front ++ rest)) : Untyped front := by
  intro l more hl hthrows
  obtain ⟨before, rfl⟩ := hl
  have hjoined := h l (more ++ rest) ⟨before, by simp⟩ hthrows
  cases more with
  | nil => rfl
  | cons x more => exact hjoined

/-- A front part with something left behind its effects is followed by as much as the whole is. -/
theorem atFunctionTail_front (h : Untyped (front ++ rest))
    (hleft : rest.length < (skipEffects (front ++ rest)).length ∨ atFunctionTail front = true) :
    atFunctionTail (front ++ rest) = atFunctionTail front := by
  have hnil : skipEffects front ≠ [] := by
    rcases hleft with hlength | htail
    · intro hempty
      rw [skipEffects_eq h, List.dropWhile_append, ← skipEffects_eq (untyped_of_append h),
        hempty] at hlength
      exact Nat.lt_irrefl _ (Nat.lt_of_lt_of_le hlength (List.dropWhile_suffix _).length_le)
    · intro hempty
      rw [atFunctionTail, hempty] at htail
      cases htail
  have hskip : skipEffects (front ++ rest) = skipEffects front ++ rest := by
    rw [skipEffects_eq h, List.dropWhile_append, ← skipEffects_eq (untyped_of_append h),
      if_neg (by simpa using hnil)]
  rw [atFunctionTail, atFunctionTail, hskip, headKind_append hnil]

end Lookahead

/-! ## Views -/

namespace View

open Lookahead (Bare Blind)

variable {c : Cut} {v : View} {n : Nat} {τ : Type} {f : List Lexeme → τ}

theorem bare_of_cuttable {front rest after : List Lexeme} {l : Lexeme}
    (hcut : Cuttable c v.lexemes) (h : front ++ l :: rest <:+ (v.cut c).lexemes)
    (hv : v.lexemes = (v.cut c).lexemes ++ after) : Bare front l := by
  intro ms hms hat
  cases ms with
  | nil => cases hat
  | cons a ms =>
    refine ⟨rest ++ after, hcut.plain a (ms ++ l :: (rest ++ after)) ?_ hat⟩
    obtain ⟨skipped, rfl⟩ := hms
    obtain ⟨before, hbefore⟩ := h
    refine ⟨before ++ skipped, ?_⟩
    rw [hv, ← hbefore]
    simp

/-- Before a wall the same is found on the front part. -/
theorem Walled.blind (hw : v.Walled c) (hcut : Cuttable c v.lexemes)
    (hf : ∀ front l, l.IsWall → Lexeme.Closes front 0 0 → Bare front l → Blind f front l) :
    f (v.cut c).lexemes = f v.lexemes := by
  by_cases hc : c.behind = 0
  · rw [lexemes_cut_of_zero hc]
  · obtain ⟨front, l, rest, hls, hl, hfront⟩ := hw hc
    obtain ⟨after, hv, -⟩ := lexemes_eq_cut c v
    have hbare : Bare front l :=
      bare_of_cuttable hcut (by rw [hls]) hv
    rw [hv, hls, List.append_assoc, List.cons_append]
    exact hf front l hl hfront hbare _ _

/-- In brackets that are closed before the cut, the same is found on the front part. -/
theorem Closes.blind (h : v.Closes c n) (hle : c.behind < v.lexemes.length)
    (hk : v.kind.isOpener = true) (hcut : Cuttable c v.lexemes)
    (hf : ∀ o front l, l.IsWall → Lexeme.Closes front 0 0 → Bare front l → Blind f (o :: front) l) :
    f (v.cut c).lexemes = f v.lexemes := by
  by_cases hc : c.behind = 0
  · rw [lexemes_cut_of_zero hc]
  · have hcloses := h hc
    have hkind : (v.cut c).kind = v.kind := View.kind_cut hle
    obtain ⟨after, hv, -⟩ := lexemes_eq_cut c v
    cases hls : (v.cut c).lexemes with
    | nil =>
      have hlength := length_cut c v
      rw [hls, List.length_nil] at hlength
      omega
    | cons o inner =>
      rw [kind, kindAt, hls] at hkind
      have ho : o.kind.isOpener = true := by rw [← hk, ← hkind]; rfl
      rw [hls] at hcloses
      -- the bracket that the first lexeme opens is closed before the cut, by a wall
      have hinner : Lexeme.Closes inner 0 (n + 1) := by
        cases hcloses with
        | opener _ rest => exact rest
        | closer hl _ _ =>
          rw [Lexeme.isOpener_of_isCloser hl] at ho
          cases ho
        | plain hno _ _ =>
          rw [hno] at ho
          cases ho
      obtain ⟨front, l, rest, rfl, hl, hfront⟩ := hinner.exists_closer
      have hbare : Bare front l :=
        bare_of_cuttable hcut (by rw [hls]; exact List.suffix_cons o _) hv
      rw [hv, hls]
      have hsame := hf o front l (.inl hl) (hfront.mono (Nat.zero_le n)) hbare rest (rest ++ after)
      simpa using hsame

end View

end SwiftOutline
