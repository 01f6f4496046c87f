/-
  SwiftOutline.Proofs.TypeShape.Parenthesized

  Parentheses around the type of a constant.
-/
import SwiftOutline.Proofs.Token.Closing
import SwiftOutline.Proofs.TypeShape.RoundTrip
import SwiftOutline.Proofs.TypeShape.Tuples

namespace SwiftOutline

open Lexer SwiftOutline.Tree

/-! ## Last lexemes -/

namespace Lexeme

/-- The lexemes end neither with one that is no token of the language nor with a point. -/
def EndsWell (ls : List Lexeme) : Prop := ∀ l ∈ ls.getLast?, l.kind ≠ .error ∧ l.kind ≠ .dot

variable {ls ms : List Lexeme} {l : Lexeme}

theorem endsWell_nil : EndsWell [] := fun _ h => absurd h (Option.not_mem_none _)

theorem EndsWell.append (hls : EndsWell ls) (hms : EndsWell ms) : EndsWell (ls ++ ms) := by
  intro l hl
  rw [List.getLast?_append] at hl
  cases hlast : ms.getLast? with
  | none =>
    rw [hlast] at hl
    exact hls l hl
  | some m =>
    rw [hlast] at hl
    exact hms l (hlast.trans hl)

theorem endsWell_cons (h : l.kind ≠ .error ∧ l.kind ≠ .dot) (hls : EndsWell ls) : EndsWell (l :: ls) := by
  refine @EndsWell.append [l] _ (fun m hm => ?_) hls
  obtain rfl : l = m := Option.some.inj hm
  exact h

theorem endsWell_snoc (h : l.kind ≠ .error ∧ l.kind ≠ .dot) : EndsWell (ls ++ [l]) := by
  intro m hm
  rw [List.getLast?_concat] at hm
  obtain rfl : l = m := Option.some.inj hm
  exact h

theorem endsWell_append_cons : EndsWell (ls ++ l :: ms) ↔ EndsWell (l :: ms) := by
  rw [EndsWell, EndsWell, List.getLast?_append_cons]

theorem endsWell_cons_cons {m : Lexeme} : EndsWell (l :: m :: ms) ↔ EndsWell (m :: ms) := by
  rw [EndsWell, EndsWell, List.getLast?_cons_cons]

end Lexeme

namespace Grammar

open Lexeme

/-- Only in the arguments of an attribute anything may stand. -/
def Phrase.IsStrict (p : Phrase) : Prop :=
  p ≠ .part .attributeArgument ∧ p ≠ .parts .attributeArgument

theorem Derives.endsWell {strict : Bool} {p : Phrase} {ls : List Lexeme} {ts : List Tree}
    (h : Derives strict p ls ts) (hp : p.IsStrict) : EndsWell ls := by
  have hkind : ∀ {n : Lexeme} {k : TokenKind}, n.kind = k → k ≠ .error ∧ k ≠ .dot →
      n.kind ≠ .error ∧ n.kind ≠ .dot := by
    rintro n k rfl h
    exact h
  have hname : ∀ {n : Lexeme}, n.kind.isNameLike = true → n.kind ≠ .error ∧ n.kind ≠ .dot := by
    intro n hn
    refine ⟨?_, ?_⟩ <;> intro he <;> rw [he] at hn <;> exact absurd hn (by decide)
  have hlabel : ∀ {n : Lexeme}, n.kind.isArgumentLabel = true →
      n.kind ≠ .error ∧ n.kind ≠ .dot := by
    intro n hn
    refine ⟨?_, ?_⟩ <;> intro he <;> rw [he] at hn <;> exact absurd hn (by decide)
  induction h with
  | type _ ih | bare _ ih | composition _ ih | single _ ih | named _ ih | tupled _ ih | plain _ ih
  | element _ ih | genericArgument _ ih | lastEffect _ ih => exact ih ⟨nofun, nofun⟩
  | attributed _ _ _ ih ih' | specified _ _ ih ih' | attributes _ _ ih ih' | joined _ _ ih ih'
  | moreEffects _ _ ih ih' => exact (ih ⟨nofun, nofun⟩).append (ih' ⟨nofun, nofun⟩)
  | specifiedAttributed _ _ _ _ ih ih' ih'' =>
    exact (ih ⟨nofun, nofun⟩).append ((ih' ⟨nofun, nofun⟩).append (ih'' ⟨nofun, nofun⟩))
  | specifier h =>
    exact endsWell_cons (h.elim (hkind · (by decide)) (hkind ·.1 (by decide))) endsWell_nil
  | specifiers first _ _ ih =>
    exact endsWell_cons (first.elim (hkind · (by decide)) (hkind ·.1 (by decide)))
      (ih ⟨nofun, nofun⟩)
  | oneAttribute sign name _ _ _ ih ih' ih'' =>
    refine endsWell_cons (hkind sign (by decide)) (endsWell_cons (hname name) ?_)
    exact (ih ⟨nofun, nofun⟩).append ((ih' ⟨nofun, nofun⟩).append (ih'' ⟨nofun, nofun⟩))
  | pathNil | unapplied | membersNil | argumentsNil => exact endsWell_nil
  | path _ name _ ih =>
    exact endsWell_cons_cons.mpr (endsWell_cons (hname name) (ih ⟨nofun, nofun⟩))
  | appliedNil _ _ closes | unit _ closes =>
    exact endsWell_cons_cons.mpr (endsWell_cons (hkind closes (by decide)) endsWell_nil)
  | @applied o c ls _ _ _ _ closes _ | @array o c ls _ _ _ closes _ | @tuple o c ls _ _ _ closes _
  | @arguments o c ls _ _ _ _ closes _ =>
    exact @endsWell_snoc (o :: ls) c (hkind closes (by decide))
  | attributeArgument => exact absurd rfl hp.1
  | lastPart _ ih => exact ih ⟨fun h => hp.2 (by rw [Phrase.part.inj h]), nofun⟩
  | moreParts _ comma _ ih ih' =>
    have hpart := ih ⟨fun h => hp.2 (by rw [Phrase.part.inj h]), nofun⟩
    exact hpart.append (endsWell_cons (hkind comma (by decide)) (ih' hp))
  | someOrAny _ _ _ ih => exact endsWell_cons_cons.mpr (ih ⟨nofun, nofun⟩)
  | lastOperand amp _ ih =>
    exact endsWell_cons (hkind amp (by decide)) (ih ⟨nofun, nofun⟩)
  | moreOperands amp _ _ ih ih' =>
    exact endsWell_cons (hkind amp (by decide))
      ((ih ⟨nofun, nofun⟩).append (ih' ⟨nofun, nofun⟩))
  | @dictionary o a c ls ms _ _ _ _ _ _ closes _ _ =>
    exact (@endsWell_append_cons (o :: ls) (ms ++ [c]) a).mpr
      (@endsWell_snoc (a :: ms) c (hkind closes (by decide)))
  | function _ arrow _ ih ih' =>
    exact (ih ⟨nofun, nofun⟩).append
      (endsWell_cons (hkind arrow (by decide)) (ih' ⟨nofun, nofun⟩))
  | functionEffects _ _ arrow _ ih ih' ih'' =>
    exact (ih ⟨nofun, nofun⟩).append ((ih' ⟨nofun, nofun⟩).append
      (endsWell_cons (hkind arrow (by decide)) (ih'' ⟨nofun, nofun⟩)))
  | optional _ mark _ _ | unwrapped _ mark _ _ | variadic _ mark _ =>
    exact endsWell_snoc (hkind mark (by decide))
  | metatype _ _ word ih =>
    exact (ih ⟨nofun, nofun⟩).append (endsWell_cons_cons.mpr
      (endsWell_cons (word.elim (hkind ·.1 (by decide)) (hkind ·.1 (by decide))) endsWell_nil))
  | labelled label colon _ ih =>
    exact endsWell_cons (hlabel label)
      (endsWell_cons (hkind colon (by decide)) (ih ⟨nofun, nofun⟩))
  | labelledTwice outer label colon _ ih =>
    exact endsWell_cons (hlabel outer) (endsWell_cons (hlabel label)
      (endsWell_cons (hkind colon (by decide)) (ih ⟨nofun, nofun⟩)))
  | name first _ _ ih ih' =>
    refine endsWell_cons (first.elim (hkind · (by decide)) (hkind ·.1 (by decide))) ?_
    exact (ih ⟨nofun, nofun⟩).append (ih' ⟨nofun, nofun⟩)
  | members _ first _ _ ih ih' =>
    refine endsWell_cons_cons.mpr
      (endsWell_cons (first.elim (hkind · (by decide)) (hkind ·.1 (by decide))) ?_)
    exact (ih ⟨nofun, nofun⟩).append (ih' ⟨nofun, nofun⟩)
  | effect h =>
    refine endsWell_cons ?_ endsWell_nil
    rcases h with h | h | h | h
    · exact hkind h.1 (by decide)
    · exact hkind h.1 (by decide)
    · exact hkind h (by decide)
    · exact hkind h (by decide)
  | @thrown e o c ls _ _ _ _ _ closes _ =>
    exact @endsWell_snoc (e :: o :: ls) c (hkind closes (by decide))

end Grammar

namespace TypeShape

variable {t : String} {u : Tree} {k : Nat}

/-! ## Texts -/

/-- A text with `k` pairs of parentheses around it. -/
def parenthesized : (k : Nat) → String → String
  | 0, t => t
  | k + 1, t => "(" ++ parenthesized k t ++ ")"

theorem toList_parenthesized (k : Nat) (t : String) :
    (parenthesized k t).toList =
      List.replicate k '(' ++ (t.toList ++ List.replicate k ')') := by
  induction k with
  | zero => simp [parenthesized]
  | succ k ih =>
    rw [parenthesized, String.toList_append, String.toList_append, ih, List.replicate_succ,
      List.replicate_succ']
    simp

theorem tokensOf_replicate_lParen (k : Nat) (rest : List Char) :
    tokensOf (List.replicate k '(' ++ rest) =
      List.replicate k ⟨.lParen, "("⟩ ++ tokensOf rest := by
  induction k with
  | zero => rfl
  | succ k ih =>
    rw [List.replicate_succ, List.replicate_succ, List.cons_append, tokensOf_lParen, ih]
    rfl

/-- The tokens of a type in parentheses, if the type ends in a token that may. -/
theorem tokensOf_parenthesized
    (hlast : ∀ x ∈ (lex t).getLast?, x.kind ≠ .lineComment ∧ x.kind ≠ .error) (k : Nat) :
    tokensOf (parenthesized k t).toList = List.replicate k ⟨.lParen, "("⟩ ++
      (lex t ++ List.replicate k ⟨.rParen, ")"⟩) := by
  rw [toList_parenthesized, tokensOf_replicate_lParen, tokensOf_closers hlast]
  rfl

theorem leaves_parenthesizedTree (k : Nat) (u : Tree) :
    (parenthesizedTree k u).leaves = List.replicate k ⟨.lParen, "("⟩ ++
      (u.leaves ++ List.replicate k ⟨.rParen, ")"⟩) := by
  induction k with
  | zero => simp [parenthesizedTree]
  | succ k ih =>
    rw [List.replicate_succ, List.replicate_succ']
    simp [parenthesizedTree, tupleTree, elementTree, labelTrees, dotTrees, leaves, forestLeaves, ih]

/-- A text that does not begin with a token of blanks does not begin with a blank. -/
theorem isBlank_of_head? {cs : List Char} (h : ∀ x ∈ (tokensOf cs).head?, x.isTrivia = false) :
    ∀ d ∈ cs.head?, isBlank d = false := by
  cases cs with
  | nil => exact fun _ h => absurd h (Option.not_mem_none _)
  | cons c cs =>
    intro d hd
    obtain rfl : c = d := Option.some.inj hd
    refine Bool.eq_false_iff.mpr fun hblank => ?_
    have hsplit := (List.takeWhile_append_dropWhile (p := isBlank) (l := cs)).symm
    have htoken : token c (cs.takeWhile isBlank ++ cs.dropWhile isBlank) =
        some (.whitespace, (cs.takeWhile isBlank).length) := by
      rw [← hsplit, token, if_pos hblank]
    rw [hsplit, tokensOf_of_kind htoken (by decide)] at h
    exact Bool.noConfusion (h _ rfl)

/-- The front of the declaration of a constant. -/
theorem tokensOf_constant {cs : List Char} (hcs : ∀ d ∈ cs.head?, isBlank d = false) :
    tokensOf ("let value: ".toList ++ cs) =
      [⟨.kwLet, "let"⟩, ⟨.whitespace, " "⟩, ⟨.ident, "value"⟩, ⟨.colon, ":"⟩, ⟨.whitespace, " "⟩] ++
        tokensOf cs := by
  have hlet : lex "let" = [⟨.kwLet, "let"⟩] := Lexer.lex_word rfl rfl nofun
  have hvalue : lex "value" = [⟨.ident, "value"⟩] := Lexer.lex_word rfl rfl nofun
  have htext : "let value: ".toList ++ cs =
      "let".toList ++ ' ' :: ("value".toList ++ ':' :: ' ' :: cs) := by simp
  rw [htext, tokensOf_append hlet (by decide) (by simp; decide),
    tokensOf_blank (by simp; decide), tokensOf_ident hvalue (by simp; decide), tokensOf_colon,
    tokensOf_blank hcs]
  rfl

theorem leaves_constantTree (u : Tree) :
    (constantTree u).leaves =
      [⟨.kwLet, "let"⟩, ⟨.whitespace, " "⟩, ⟨.ident, "value"⟩, ⟨.colon, ":"⟩, ⟨.whitespace, " "⟩] ++
        u.leaves := by
  simp [constantTree, ascriptionTree, wordTree, blankTree, leaves, forestLeaves]

/-- The last token of a type, if it is no trivia. -/
theorem last_of_significant {strict : Bool} {ls : List Lexeme} {ts : List Tree} {toks : List Token}
    (h : Grammar.Derives strict .type ls ts) (hls : ls.map Lexeme.token = Token.significant toks)
    {x : Token} (hx : x ∈ toks.getLast?) (hproper : x.isTrivia = false) :
    x.kind ≠ .error ∧ x.kind ≠ .dot := by
  obtain ⟨front, rfl⟩ := List.getLast?_eq_some_iff.mp hx
  rw [Token.significant, List.filter_append, List.filter_cons_of_pos (by simp [hproper])] at hls
  have hlast := congrArg List.getLast? hls
  rw [List.getLast?_map, List.filter_nil, List.getLast?_concat] at hlast
  obtain ⟨l, hl, rfl⟩ := Option.map_eq_some_iff.mp hlast
  exact h.endsWell ⟨by decide, by decide⟩ l hl

/-- A type whose last token is no trivia does not end in the middle of a token, so that something
    may be written behind it. -/
theorem last_of_derives {strict : Bool} {ls : List Lexeme} {ts : List Tree} {toks : List Token}
    (h : Grammar.Derives strict .type ls ts) (hls : ls.map Lexeme.token = Token.significant toks)
    (htidy : ∀ x ∈ toks.getLast?, x.isTrivia = false) :
    ∀ x ∈ toks.getLast?, x.kind ≠ .lineComment ∧ x.kind ≠ .error := by
  intro x hx
  have hproper := htidy x hx
  refine ⟨fun hk => ?_, (last_of_significant h hls hx hproper).1⟩
  rw [Token.isTrivia, hk] at hproper
  exact absurd hproper (by decide)

/-! ## Types of the grammar -/

theorem FormsTree.parenthesized (h : FormsTree .type u) (k : Nat) :
    FormsTree .type (parenthesizedTree k u) := by
  induction k with
  | zero => exact h
  | succ k ih =>
    have hparts := (@FormsForest.element _ none (fun _ hl => nomatch hl) ih false).imp
      fun _ _ hd => Grammar.Derives.lastPart hd
    exact ((FormsTree.tuple hparts).imp fun _ _ hd => Grammar.Derives.tupled hd).type

theorem formsTree_unit : FormsTree .type (tupleTree []) :=
  (FormsTree.unit.imp fun _ _ hd => Grammar.Derives.tupled hd).type

/-- The tokens of a constant whose type stands in parentheses. -/
theorem lex_parenthesized (hlast : ∀ x ∈ (lex t).getLast?, x.kind ≠ .lineComment ∧ x.kind ≠ .error)
    (hfirst : ∀ x ∈ (lex t).head?, x.isTrivia = false) (ht : lex t = u.leaves) (k : Nat) :
    lex ("let value: " ++ parenthesized k t) = (constantTree (parenthesizedTree k u)).leaves := by
  have htokens := tokensOf_parenthesized hlast k
  rw [ht, ← leaves_parenthesizedTree] at htokens
  rw [leaves_constantTree, lex_eq_tokensOf, String.toList_append, tokensOf_constant, htokens]
  refine isBlank_of_head? ?_
  rw [htokens]
  cases k with
  | zero => rwa [parenthesizedTree, ← ht]
  | succ k =>
    rw [leaves_parenthesizedTree, List.replicate_succ]
    exact fun x hx => Option.some.inj hx ▸ rfl

/-- The type of a constant, as it is parsed, neither begins nor ends with trivia, and so does
    every part of it. -/
theorem tidy_of_parse {source : String} (h : (parse source).tree = .node .sourceFile [constantTree u]) :
    u.Tidy := by
  have hconstant := tidy_of_mem_children_parse source (constantTree u) (by rw [h]; exact .head _)
  have hlist := hconstant.of_mem_children (.tail _ (.tail _ (.head _)))
  have hascription := (hlist.of_mem_children (.head _)).of_mem_children (.tail _ (.head _))
  exact hascription.of_mem_children (.tail _ (.tail _ (.head _)))

theorem classify_ofAscribed_parenthesizedTree (hu : u.nodeKind?.any NodeKind.isType = true)
    (htidy : u.Tidy) (k : Nat) :
    classify (.ofAscribed (parenthesizedTree k u)) = classify (.ofAscribed u) :=
  classify_parenthesizedTree hu htidy rfl rfl (apart_ofAscribed _) (apart_ofAscribed _)
    (fun m => by cases m <;> rfl) (fun m => by cases m <;> rfl)

/-- A phrase that is a type has the tree of a type. -/
theorem isType_of_derives {strict : Bool} {ls : List Lexeme}
    (h : Grammar.Derives strict .type ls [u]) : u.nodeKind?.any NodeKind.isType = true := by
  cases h with
  | attributed _ _ _ => rfl
  | type h => exact h.isType_of_specified

theorem isType_of_forms (h : FormsTree .type u) : u.nodeKind?.any NodeKind.isType = true := by
  obtain ⟨ls, -, hd⟩ := h.derives .none
  rw [← Tree.nodeKind?_withoutTrivia]
  exact isType_of_derives hd

/-- Parentheses around the type of a constant. -/
theorem classify_parenthesized (hu : FormsTree .type u) (ht : lex t = u.leaves) :
    (∀ k, parse ("let value: " ++ parenthesized k t) =
        ⟨.node .sourceFile [constantTree (parenthesizedTree k u)], []⟩ ∧
      classify (.ofAscribed (parenthesizedTree k u)) = classify (.ofAscribed u)) ∧
    (∀ k, parse ("let value: " ++ parenthesized k "()") =
        ⟨.node .sourceFile [constantTree (parenthesizedTree k (tupleTree []))], []⟩ ∧
      classify (.ofAscribed (parenthesizedTree k (tupleTree []))) = void false) ∧
    ∀ c : Cursor, TuplesProper (classify c) := by
  have hparse : ∀ {t u}, FormsTree .type u → lex t = u.leaves → ∀ k,
      parse ("let value: " ++ parenthesized k t) =
        ⟨.node .sourceFile [constantTree (parenthesizedTree k u)], []⟩ := by
    intro t u hu ht k
    obtain ⟨x, xs, hleaves, hx⟩ := hu.snug.exists_first
    obtain ⟨ys, y, hleaves', hy⟩ := hu.snug.exists_last
    obtain ⟨ls, hls, hd⟩ := hu.derives .none
    have hsignificant := Lexeme.map_token_ofTokensAfter .none u.leaves
    rw [hls] at hsignificant
    have hlast : ∀ x ∈ (lex t).getLast?, x.kind ≠ .lineComment ∧ x.kind ≠ .error := by
      rw [ht]
      refine last_of_derives hd hsignificant ?_
      rw [hleaves', List.getLast?_concat]
      exact fun z hz => Option.some.inj hz ▸ hy
    have hfirst : ∀ x ∈ (lex t).head?, x.isTrivia = false := by
      rw [ht, hleaves]
      exact fun z hz => Option.some.inj hz ▸ hx
    exact parse_constant (FormsTree.parenthesized hu k) (lex_parenthesized hlast hfirst ht k)
  have hclassify : ∀ {t u}, FormsTree .type u → lex t = u.leaves → ∀ k,
      classify (.ofAscribed (parenthesizedTree k u)) = classify (.ofAscribed u) := by
    intro t u hu ht k
    obtain ⟨ls, -, hd⟩ := hu.derives .none
    have htype := isType_of_derives hd
    rw [Tree.nodeKind?_withoutTrivia] at htype
    exact classify_ofAscribed_parenthesizedTree htype
      (tidy_of_parse (congrArg Parse.tree (hparse hu ht 0))) k
  refine ⟨fun k => ⟨hparse hu ht k, hclassify hu ht k⟩, fun k => ⟨?_, ?_⟩, tuplesProper_classify⟩
  · exact hparse formsTree_unit (by decide +kernel) k
  · rw [hclassify formsTree_unit (t := "()") (by decide +kernel) k]
    rfl

/-- `[Int]?` with two pairs of parentheses. -/
theorem classify_parenthesized_array :
    let u := markedTree true (arrayTree (namedTree "Int"))
    FormsTree .type u ∧ lex "[Int]?" = u.leaves ∧
      parse "let value: (([Int]?))" =
        ⟨.node .sourceFile [constantTree (parenthesizedTree 2 u)], []⟩ ∧
      classify (.ofAscribed (parenthesizedTree 2 u)) = classify (.ofAscribed u) := by
  intro u
  have hint : FormsTree .type (namedTree "Int") := (FormsTree.named (by decide)).type
  have hu : FormsTree .type u := (hint.array.marked true).type
  have hlex : lex "[Int]?" = u.leaves := by decide +kernel
  obtain ⟨hparse, hclassify⟩ := (classify_parenthesized hu hlex).1 2
  exact ⟨hu, hlex, hparse, hclassify⟩

end TypeShape

end SwiftOutline
