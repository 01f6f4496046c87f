/-
  SwiftOutline.Proofs.Token.OperatorRuns

  What a `<` behind an operator is. A slash is a token by itself, with a `=`
  behind it if there is one; of all other characters the longest run is. So a `<`
  stands apart behind a slash, and everywhere else it is the last character of
  the operator.
-/
import SwiftOutline.Proofs.Token.Operators

namespace SwiftOutline

namespace Lexer

variable {cs run more : List Char} {c : Char}

/-! ## Ends of operators -/

/-- The text ends with a slash, or with a slash and a `=`. -/
def EndsInSlash (cs : List Char) : Prop := ['/'] <:+ cs ∨ ['/', '='] <:+ cs

instance : DecidablePred EndsInSlash := fun _ => inferInstanceAs (Decidable (_ ∨ _))

/-- What stands in front does not matter, but for a slash in front of a single `=`. -/
theorem endsInSlash_cons (hne : cs ≠ []) (h : c = '/' → cs ≠ ['=']) :
    EndsInSlash (c :: cs) ↔ EndsInSlash cs := by
  have hback : ∀ w : List Char, w <:+ cs → w <:+ c :: cs := fun w hw =>
    hw.trans (List.suffix_cons c cs)
  refine ⟨fun hend => ?_, Or.imp (hback _) (hback _)⟩
  rcases hend with hone | htwo
  · rcases List.suffix_cons_iff.mp hone with hall | hone
    · exact absurd (List.cons.inj hall).2.symm hne
    · exact .inl hone
  · rcases List.suffix_cons_iff.mp htwo with hall | htwo
    · obtain ⟨hc, hcs⟩ := List.cons.inj hall
      exact absurd hcs.symm (h hc.symm)
    · exact .inr htwo

theorem endsInSlash_append (hne : cs ≠ []) (h : cs ≠ ['=']) (run : List Char) :
    EndsInSlash (run ++ cs) ↔ EndsInSlash cs := by
  induction run with
  | nil => rfl
  | cons d run ih =>
    rw [List.cons_append, endsInSlash_cons (by simp [hne]), ih]
    intro _ hsingle
    cases run with
    | nil => exact h hsingle
    | cons e run =>
      have hlength := congrArg List.length hsingle
      have hpos := List.length_pos_iff.mpr hne
      simp only [List.cons_append, List.length_cons, List.length_append, List.length_nil] at hlength
      omega

theorem not_endsInSlash_of_run (h : ∀ d ∈ cs, isOperatorChar d = true) : ¬ EndsInSlash cs := by
  have hslash : '/' ∉ cs := fun hmem => absurd (h '/' hmem) (by decide)
  rintro (hend | hend) <;> exact hslash (hend.subset (by simp))

/-! ## The last token -/

theorem tokensOf_cons_of_token {k : TokenKind} {n : Nat} (h : token c cs = some (k, n)) :
    tokensOf (c :: cs) =
      Token.parts ⟨k, String.ofList (c :: cs.take n)⟩ ++ tokensOf (cs.drop n) := by
  obtain ⟨k', n', htoken, hmatch⟩ := exists_match_token c cs
  rw [h] at htoken
  obtain ⟨rfl, rfl⟩ := Prod.mk.inj (Option.some.inj htoken)
  have hlength : (cs.take n).length = n := by
    rw [List.length_take, Nat.min_eq_left hmatch.length_le]
  have hwhole : token c (cs.take n ++ cs.drop n) = some (k, (cs.take n).length) := by
    rw [List.take_append_drop, hlength]
    exact h
  have hread := tokensOf_of_token hwhole
  rwa [List.take_append_drop] at hread

/-- A slash that begins an operator begins no comment, so that it takes a `=` at most. -/
theorem slash_append {k : TokenKind} {n : Nat} (h : slash cs = some (k, n))
    (hk : k.isOperatorLike = true) (hne : cs ≠ []) (more : List Char) :
    slash (cs ++ more) = some (.operator, if cs.head? = some '=' then 1 else 0) := by
  unfold slash at h
  split at h
  · obtain ⟨rfl, -⟩ := Prod.mk.inj (Option.some.inj h)
    cases hk
  · dsimp only at h
    split at h
    all_goals
      simp only [Option.bind_eq_bind, Option.bind_eq_some_iff, Option.pure_def, Option.some.injEq,
        Prod.mk.injEq] at h
      obtain ⟨-, -, rfl, -⟩ := h
      cases hk
  · rfl
  · next hslash hstar heq =>
    obtain ⟨d, cs, rfl⟩ := List.exists_cons_of_ne_nil hne
    have hd : d ≠ '=' := fun hd => heq cs (hd ▸ rfl)
    rw [List.head?_cons, if_neg (by simpa using hd), List.cons_append]
    unfold slash
    split
    · next h => exact absurd ((List.cons.inj h).1 ▸ rfl) (hslash cs)
    · next h => exact absurd ((List.cons.inj h).1 ▸ rfl) (hstar cs)
    · next h => exact absurd (List.cons.inj h).1 hd
    · rfl

theorem tokensOf_slash {n : Nat} (h : slash cs = some (.operator, n)) :
    tokensOf ('/' :: cs) =
      ⟨.operator, String.ofList ('/' :: cs.take n)⟩ :: tokensOf (cs.drop n) := by
  have htoken : token '/' cs = some (.operator, n) := h
  have hmark : Token.isMark '/' = false := by decide
  rw [tokensOf_cons_of_token htoken, Token.parts, if_neg]
  · rfl
  · simp [Token.isPostfixRun, hmark]

/-- What a slash of an operator is, when more of the operator follows it. -/
theorem slash_of_operators (hne : cs ≠ [])
    (hlex : ∀ t ∈ tokensOf ('/' :: cs), t.kind.isOperatorLike = true) (more : List Char) :
    slash (cs ++ more) = some (.operator, if cs.head? = some '=' then 1 else 0) := by
  obtain ⟨k, n, hslash, -⟩ := @exists_match_slash cs
  refine slash_append hslash ?_ hne more
  by_cases hk : k = .operator
  · rw [hk]
    rfl
  · have htoken : token '/' cs = some (k, n) := hslash
    rw [tokensOf_cons_of_token htoken, parts_of_kind hk] at hlex
    exact hlex _ List.mem_cons_self

/-- An operator is taken apart from the left: its first token, whatever stands behind the operator,
    and the rest of it, which ends as the operator does. -/
theorem exists_first_token (hchars : ∀ d ∈ c :: cs, isOperatorChar d = true ∨ d = '/')
    (hlex : ∀ t ∈ tokensOf (c :: cs), t.kind.isOperatorLike = true) :
    (((c :: cs = ['/'] ∨ c :: cs = ['/', '=']) ∨ ∀ d ∈ c :: cs, isOperatorChar d = true)) ∨
    ∃ first rest, rest ≠ [] ∧ rest <:+ cs ∧ (EndsInSlash (c :: cs) ↔ EndsInSlash rest) ∧
      ∀ more, tokensOf (c :: cs ++ more) = first ++ tokensOf (rest ++ more) := by
  rcases hchars c List.mem_cons_self with hc | rfl
  · -- a run goes up to the next slash
    have hsplit : cs.takeWhile isOperatorChar ++ cs.dropWhile isOperatorChar = cs :=
      List.takeWhile_append_dropWhile
    have hrun : ∀ d ∈ cs.takeWhile isOperatorChar, isOperatorChar d = true := fun d hd =>
      List.mem_takeWhile_imp hd
    have hstop : ∀ d ∈ (cs.dropWhile isOperatorChar).head?, isOperatorChar d = false := by
      intro d hd
      have hnot := List.head?_dropWhile_not isOperatorChar cs
      rw [Option.mem_def.mp hd] at hnot
      exact hnot
    generalize cs.takeWhile isOperatorChar = run at *
    generalize cs.dropWhile isOperatorChar = rest at *
    subst hsplit
    cases rest with
    | nil =>
      refine .inl (.inr ?_)
      rw [List.append_nil]
      exact List.forall_mem_cons.mpr ⟨hc, hrun⟩
    | cons d ds =>
      have hd : d ≠ '=' := by
        rintro rfl
        exact absurd (hstop '=' rfl) (by decide)
      refine .inr ⟨Token.parts ⟨operatorKind (c :: run), String.ofList (c :: run)⟩, d :: ds,
        List.cons_ne_nil d ds, List.suffix_append _ _, ?_, fun more => ?_⟩
      · rw [← List.cons_append]
        exact endsInSlash_append (List.cons_ne_nil d ds) (by simp [hd]) _
      · have hmore : ∀ e ∈ (d :: ds ++ more).head?, isOperatorChar e = false := hstop
        have htoken : token c (run ++ (d :: ds ++ more)) =
            some (operatorKind (c :: run), run.length) := by
          rw [token_operator hc, takeWhile_append_stop hrun hmore]
        rw [List.cons_append, List.append_assoc]
        exact tokensOf_of_token htoken
  · cases cs with
    | nil => exact .inl (.inl (.inl rfl))
    | cons d ds =>
      have hslash := slash_of_operators (List.cons_ne_nil d ds) hlex
      by_cases hd : d = '='
      · subst hd
        cases ds with
        | nil => exact .inl (.inl (.inr rfl))
        | cons e es =>
          refine .inr ⟨[⟨.operator, String.ofList ['/', '=']⟩], e :: es, List.cons_ne_nil e es,
            List.suffix_cons _ _, ?_, fun more => tokensOf_slash (hslash more)⟩
          rw [endsInSlash_cons (by simp) (by simp), endsInSlash_cons (by simp) (by simp)]
      · refine .inr ⟨[⟨.operator, String.ofList ['/']⟩], d :: ds, List.cons_ne_nil d ds,
          List.suffix_refl _, ?_, fun more => ?_⟩
        · exact endsInSlash_cons (List.cons_ne_nil d ds) (by simp [hd])
        · have hnone := hslash more
          rw [List.head?_cons, if_neg (by simpa using hd)] at hnone
          exact tokensOf_slash hnone

/-- The tokens of an operator up to its last one. That is a slash, a slash with a `=`, or a run of
    operator characters, whatever follows. -/
theorem exists_last_token (hne : cs ≠ []) (hchars : ∀ d ∈ cs, isOperatorChar d = true ∨ d = '/')
    (hlex : ∀ t ∈ tokensOf cs, t.kind.isOperatorLike = true) :
    ∃ front last, (∀ more, tokensOf (cs ++ more) = front ++ tokensOf (last ++ more)) ∧
      ((last = ['/'] ∨ last = ['/', '=']) ∧ EndsInSlash cs ∨
        last ≠ [] ∧ (∀ d ∈ last, isOperatorChar d = true) ∧ ¬ EndsInSlash cs) := by
  induction hn : cs.length using Nat.strong_induction_on generalizing cs with
  | _ n ih =>
    obtain ⟨c, cs, rfl⟩ := List.exists_cons_of_ne_nil hne
    rcases exists_first_token hchars hlex with hlast | ⟨first, rest, hrest, hsuffix, hends, hread⟩
    · refine ⟨[], c :: cs, fun _ => rfl, ?_⟩
      rcases hlast with hslash | hrun
      · refine .inl ⟨hslash, ?_⟩
        rcases hslash with hslash | hslash
        · exact .inl (hslash ▸ List.suffix_refl _)
        · exact .inr (hslash ▸ List.suffix_refl _)
      · exact .inr ⟨hne, hrun, not_endsInSlash_of_run hrun⟩
    · have hlt : rest.length < n := by
        rw [← hn, List.length_cons]
        exact Nat.lt_succ_of_le hsuffix.length_le
      have hmore : ∀ t ∈ tokensOf rest, t.kind.isOperatorLike = true := by
        have hall := hread []
        rw [List.append_nil, List.append_nil] at hall
        exact fun t ht => hlex t (hall ▸ List.mem_append_right _ ht)
      obtain ⟨front, last, hfront, hlast⟩ := ih _ hlt hrest
        (fun d hd => hchars d (List.mem_cons_of_mem c (hsuffix.subset hd))) hmore rfl
      refine ⟨first ++ front, last, fun more => ?_, ?_⟩
      · rw [hread, hfront, List.append_assoc]
      · rwa [hends]

/-! ## A `<` behind an operator -/

/-- Behind a slash a `<` is a token of its own. -/
theorem tokensOf_lt_of_slash (hne : cs ≠ []) (hchars : ∀ d ∈ cs, isOperatorChar d = true ∨ d = '/')
    (hlex : ∀ t ∈ tokensOf cs, t.kind.isOperatorLike = true) (hslash : EndsInSlash cs)
    (hmore : ∀ d ∈ more.head?, isOperatorChar d = false) :
    tokensOf (cs ++ '<' :: more) = tokensOf cs ++ ⟨.lt, "<"⟩ :: tokensOf more := by
  obtain ⟨front, last, hfront, hlast⟩ := exists_last_token hne hchars hlex
  have hlt : tokensOf ('<' :: more) = ⟨.lt, "<"⟩ :: tokensOf more :=
    tokensOf_operator (w := []) (by decide) nofun hmore (by decide)
  have halone := hfront []
  rw [List.append_nil, List.append_nil] at halone
  rw [hfront, halone, List.append_assoc, ← hlt]
  congr 1
  rcases hlast with ⟨rfl | rfl, -⟩ | ⟨-, -, hnot⟩
  · have hnone : slash ('<' :: more) = some (.operator, 0) := rfl
    exact tokensOf_slash hnone
  · have heq : slash ('=' :: '<' :: more) = some (.operator, 1) := rfl
    exact tokensOf_slash heq
  · exact absurd hslash hnot

theorem operatorKind_concat_lt (c : Char) (run : List Char) :
    operatorKind (c :: (run ++ ['<'])) = .operator := by
  cases run with
  | nil =>
    unfold operatorKind
    split <;> simp_all
  | cons d run =>
    unfold operatorKind
    split <;> simp_all

/-- Everywhere else it goes on with the last token, which is an operator then. -/
theorem tokensOf_lt_of_run (hne : cs ≠ []) (hchars : ∀ d ∈ cs, isOperatorChar d = true ∨ d = '/')
    (hlex : ∀ t ∈ tokensOf cs, t.kind.isOperatorLike = true) (hslash : ¬ EndsInSlash cs)
    (hmore : ∀ d ∈ more.head?, isOperatorChar d = false) :
    tokensOf (cs ++ '<' :: more) = tokensOf (cs ++ ['<']) ++ tokensOf more ∧
      ∀ t ∈ tokensOf (cs ++ ['<']), t ∈ tokensOf cs ∨ t.kind = .operator := by
  obtain ⟨front, last, hfront, hlast⟩ := exists_last_token hne hchars hlex
  rcases hlast with ⟨-, hend⟩ | ⟨hlast, hrun, -⟩
  · exact absurd hend hslash
  obtain ⟨c, run, rfl⟩ := List.exists_cons_of_ne_nil hlast
  obtain ⟨hc, hrun⟩ := List.forall_mem_cons.mp hrun
  have hall : ∀ d ∈ run ++ ['<'], isOperatorChar d = true :=
    List.forall_mem_append.mpr ⟨hrun, List.forall_mem_singleton.mpr (by decide)⟩
  have hlonger : ∀ more, (∀ d ∈ more.head?, isOperatorChar d = false) →
      tokensOf (c :: (run ++ ['<'] ++ more)) =
        [⟨.operator, String.ofList (c :: (run ++ ['<']))⟩] ++ tokensOf more := by
    intro more hmore
    have htoken : token c (run ++ ['<'] ++ more) = some (.operator, (run ++ ['<']).length) := by
      rw [token_operator hc, takeWhile_append_stop hall hmore, operatorKind_concat_lt]
    have hmark : Token.isMark '<' = false := by decide
    rw [tokensOf_of_token htoken, Token.parts, if_neg]
    simp [Token.isPostfixRun, hmark]
  have hread : ∀ more, (∀ d ∈ more.head?, isOperatorChar d = false) →
      tokensOf (cs ++ '<' :: more) =
        front ++ [⟨.operator, String.ofList (c :: (run ++ ['<']))⟩] ++ tokensOf more := by
    intro more hmore
    have hsplit : c :: run ++ '<' :: more = c :: (run ++ ['<'] ++ more) := by simp
    rw [hfront, hsplit, hlonger more hmore, List.append_assoc]
  have hwhole := hread [] (by simp)
  have halone := hfront []
  rw [List.append_nil] at halone
  rw [show tokensOf [] = [] from rfl, List.append_nil] at hwhole
  refine ⟨by rw [hread more hmore, hwhole], fun t ht => ?_⟩
  rw [hwhole] at ht
  rcases List.mem_append.mp ht with ht | ht
  · exact .inl (halone ▸ List.mem_append_left _ ht)
  · exact .inr (by rw [List.mem_singleton.mp ht])

end Lexer

theorem Lexer.eq_of_operatorKind (h : operatorKind cs = .lt) : cs = ['<'] := by
  unfold operatorKind at h
  split at h <;> first | rfl | cases h

theorem Lexer.ne_lt_of_slash {k : TokenKind} {n : Nat} (h : slash cs = some (k, n)) : k ≠ .lt := by
  unfold slash at h
  split at h
  · cases h
    decide
  · dsimp only at h
    split at h
    all_goals
      simp only [Option.bind_eq_bind, Option.bind_eq_some_iff, Option.pure_def, Option.some.injEq,
        Prod.mk.injEq] at h
      obtain ⟨-, -, rfl, -⟩ := h
      decide
  · cases h
    decide
  · cases h
    decide

/-- The characters of a token are written in the text. -/
theorem mem_of_mem_lex {source : String} {t : Token} (ht : t ∈ lex source) {d : Char}
    (hd : d ∈ t.text.toList) : d ∈ source.toList := by
  rw [← join_lex source]
  simpa using ⟨t, ht, hd⟩

/-- Where no `<` is written none is read. -/
theorem ne_lt_of_mem_lex {source : String} {t : Token} (ht : t ∈ lex source)
    (hchars : ∀ d ∈ source.toList, Lexer.isOperatorChar d = true ∨ d = '/')
    (hlt : '<' ∉ source.toList) : t.kind ≠ .lt := by
  have hsub : ∀ d ∈ t.text.toList, d ∈ source.toList := fun d hd => mem_of_mem_lex ht hd
  rcases exists_token_of_mem_lex ht with ⟨c, -, rfl⟩ | ⟨c, rest, n, htoken, htext⟩
  · dsimp only
    rcases Token.markKind_cases c with hc | hc | hc
    all_goals
      rw [hc]
      decide
  · intro hk
    rw [htext, String.toList_ofList] at hsub
    rw [hk] at htoken
    have hfirst := hsub c List.mem_cons_self
    rcases hchars c hfirst with hc | rfl
    · rw [Lexer.token_operator hc] at htoken
      obtain ⟨hkind, -⟩ := Prod.mk.inj (Option.some.inj htoken)
      obtain ⟨rfl, -⟩ := List.cons.inj (Lexer.eq_of_operatorKind hkind)
      exact hlt hfirst
    · exact Lexer.ne_lt_of_slash htoken rfl

end SwiftOutline
