/-
  SwiftOutline.Proofs.Parser.Reporting

  Programs that report problems while they read. The reports are added to those
  from before, and reading goes on as if they had not been made. So a file whose
  first item is a declaration with problems has these first, and what stands
  behind the declaration is parsed as a file of its own.
-/
import SwiftOutline.Proofs.Parser.Recovers
import SwiftOutline.Proofs.Tree.Modified

namespace SwiftOutline

open SwiftOutline.Tree
open Lexeme (ahead behind)

/-- The state with further reports, the newest of them first. -/
def State.reporting (s : State) (rs : List Report) : State := { s with reports := rs ++ s.reports }

namespace Parser

open Grammar (runRule)

variable {α β : Type} {p : Parser α} {a : α} {b : β} {f : α → Parser β} {c d e : Point}
  {ls rest : List Lexeme} {us : List Tree} {rs rs' : List Report}

/-- From a state at the point `c`, the program comes with the result `a` to the point `d` and
    makes the reports `rs` on the way. -/
def Reports (p : Parser α) (a : α) (rs : List Report) (c d : Point) : Prop :=
  ∀ s : State, ∃ enough, ∀ depth, enough ≤ depth →
    p.run (runRule depth) (s.after c) = (a, (s.reporting rs).after d)

namespace Reports

/-- What was built before does not matter. -/
theorem onto (h : Reports p a rs ⟨ls, []⟩ ⟨rest, us⟩) (before : List Tree) :
    Reports p a rs ⟨ls, before⟩ ⟨rest, before ++ us⟩ := by
  intro s
  have hread := h (s.after ⟨ls, before⟩)
  have hbehind : ((s.after ⟨ls, before⟩).reporting rs).after ⟨rest, us⟩ =
      (s.reporting rs).after ⟨rest, before ++ us⟩ := State.after_after (s := s.reporting rs)
  rwa [State.after_after, List.append_nil, hbehind] at hread

theorem report (problem : Problem) :
    Reports (Parser.report problem) () [⟨problem, c.lexemes.length⟩] c c :=
  fun _ => ⟨0, fun _ _ => rfl⟩

theorem bind (h : Reports p a rs c d) (h' : Reports (f a) b rs' d e) :
    Reports (p >>= f) b (rs' ++ rs) c e := by
  intro s
  obtain ⟨m, hm⟩ := h s
  obtain ⟨n, hn⟩ := h' (s.reporting rs)
  refine ⟨max m n, fun depth hd => ?_⟩
  rw [run_bind_of_run (hm depth (by omega)), hn depth (by omega)]
  simp [State.reporting]

theorem node {k : NodeKind} (ts : List Tree) (h : Reports p a rs ⟨ls, []⟩ ⟨rest, us⟩) :
    Reports (node k p) a rs ⟨ls, ts⟩ ⟨rest, ts ++ [Tree.node k us]⟩ := by
  intro s
  obtain ⟨n, hn⟩ := h ((s.after ⟨ls, ts⟩).start false)
  refine ⟨n, fun depth hd => ?_⟩
  have hstart : ((s.after ⟨ls, ts⟩).start false).after ⟨ls, []⟩ =
      (s.after ⟨ls, ts⟩).start false := State.after_self rfl
  rw [run_node, ← hstart, hn depth hd]
  simp [State.finish, State.after, State.start, State.reporting]

end Reports

/-- In front of the tokens of the trees and then `rest`, the program comes with the result `a` to
    `rest`, builds the trees without their trivia, and makes the reports `rs` on the way. -/
def RecoversReporting (p : Parser α) (a : α) (rs : List Report) (ts : List Tree)
    (rest : List Token) : Prop :=
  ∀ gap, Reports p a rs ⟨ahead gap (forestLeaves ts ++ rest), []⟩
    ⟨ahead (behind gap ts) rest, forestWithoutTrivia ts⟩

namespace RecoversReporting

variable {ts us : List Tree} {rest : List Token}

theorem of_recovers (h : Recovers p a ts rest) : RecoversReporting p a [] ts rest := h

theorem recovers (h : RecoversReporting p a [] ts rest) : Recovers p a ts rest := h

theorem bind (h : RecoversReporting p a rs ts (forestLeaves us ++ rest))
    (h' : RecoversReporting (f a) b rs' us rest) :
    RecoversReporting (p >>= f) b (rs' ++ rs) (ts ++ us) rest := by
  intro gap
  rw [forestLeaves_append, List.append_assoc, forestWithoutTrivia_append, Lexeme.behind_append]
  exact (h gap).bind ((h' _).onto _)

/-- What is reported behind trees that are recovered without any report. -/
theorem after (h : Recovers p a ts (forestLeaves us ++ rest))
    (h' : RecoversReporting (f a) b rs us rest) :
    RecoversReporting (p >>= f) b rs (ts ++ us) rest := by
  have hbind := (of_recovers h).bind h'
  rwa [List.append_nil] at hbind

/-- A program that consumes nothing in front of the trees. -/
theorem skip (h : Recovers p a [] (forestLeaves ts ++ rest))
    (h' : RecoversReporting (f a) b rs ts rest) : RecoversReporting (p >>= f) b rs ts rest :=
  after h h'

/-- A program that recovers one tree, and what comes behind it. -/
theorem cons {t : Tree} (h : Recovers p a [t] (forestLeaves ts ++ rest))
    (h' : RecoversReporting (f a) b rs ts rest) : RecoversReporting (p >>= f) b rs (t :: ts) rest :=
  after h h'

/-- A program that consumes nothing behind the trees. -/
theorem last (h : RecoversReporting p a rs ts rest) (h' : Recovers (f a) b [] rest) :
    RecoversReporting (p >>= f) b rs ts rest := by
  have hbind : RecoversReporting (p >>= f) b ([] ++ rs) (ts ++ []) rest := h.bind (of_recovers h')
  rwa [List.nil_append, List.append_nil] at hbind

theorem blank (h : RecoversReporting p a rs ts rest) :
    RecoversReporting p a rs (TypeShape.blankTree :: ts) rest := by
  intro gap
  have hblank : Token.isTrivia ⟨.whitespace, " "⟩ = true := rfl
  rw [TypeShape.blankTree, forestLeaves, leaves, List.singleton_append, List.cons_append,
    Lexeme.ahead_trivia hblank, Lexeme.behind_trivia hblank, forestWithoutTrivia,
    isTriviaLeaf_leaf, if_pos hblank]
  exact h _

theorem sees {k : TokenKind} {f : Bool → Parser α}
    (h : RecoversReporting (f (Token.kindAt (forestLeaves ts ++ rest) 0 == k)) a rs ts rest) :
    RecoversReporting (Parser.sees k >>= f) a rs ts rest := by
  refine skip (a := Token.kindAt (forestLeaves ts ++ rest) 0 == k) (fun gap => ?_) h
  refine .view (f := fun v => pure (v.kind == k)) fun v hv => ?_
  rw [View.kind, View.kindAt_of_ahead hv, forestLeaves, List.nil_append]
  exact .pure

theorem report (problem : Problem) : RecoversReporting (Parser.report problem) ()
    [⟨problem, (Token.significant rest).length⟩] [] rest := by
  intro gap
  rw [← Lexeme.length_ahead gap]
  exact Reports.report problem

theorem node {k : NodeKind} (h : RecoversReporting p a rs ts rest) :
    RecoversReporting (node k p) a rs [.node k ts] rest := by
  intro gap
  have hleaves : forestLeaves [.node k ts] = forestLeaves ts := by
    rw [forestLeaves, leaves, forestLeaves, List.append_nil]
  rw [Lexeme.behind, hleaves]
  exact (h gap).node []

end RecoversReporting

end Parser

namespace Grammar

open SwiftOutline.Parser

variable {l : Lexeme} {ls rest : List Lexeme} {k : NodeKind} {t : Tree} {rs : List Report}

/-- A file that begins with a declaration: what the declaration becomes and the problems in it come
    first, and what stands behind it is parsed as a file of its own. -/
theorem parseLexemes_of_declaration (hl : l.kind.isDeclKeyword = true)
    (hdeclaration : Lookahead.declaration? .topLevel (l :: ls) = some k)
    (h : Reports (declaration k) () rs ⟨l :: ls, []⟩ ⟨rest, [t]⟩)
    (hlt : rest.length < (l :: ls).length) (endGap : Gap) :
    parseLexemes (l :: ls) endGap = (parseLexemes rest endGap).framed [t] rs := by
  obtain ⟨n, hn⟩ := h (State.initial (l :: ls) endGap)
  obtain ⟨u, -, -, hall⟩ := exists_proceeds_file (l :: ls) endGap
  obtain ⟨u', -, -, hrest⟩ := exists_proceeds_file rest endGap
  -- a depth at which the declaration is read as above, and both files to their ends
  obtain ⟨depth, hdepth, hle⟩ : ∃ depth, n ≤ depth ∧ depthBound (l :: ls).length ≤ depth :=
    ⟨max n _, le_max_left _ _, le_max_right _ _⟩
  have hbound : depthBound rest.length ≤ depth :=
    Nat.le_trans (by simp only [depthBound]; omega) hle
  have hbehind : ((State.initial (l :: ls) endGap).reporting rs).after ⟨rest, [t]⟩ =
      (State.initial rest endGap).framed [t] rs := by
    simp [State.after, State.initial, State.framed, State.reporting]
  have hround : (itemRound .topLevel).run (runRule depth) (State.initial (l :: ls) endGap) =
      (true, (State.initial rest endGap).framed [t] rs) := by
    refine run_itemRound_declaration (.inl hl) hdeclaration ?_ hlt
    rw [← hbehind, ← hn depth hdepth]
    rfl
  have hfile := run_file_of_itemRound hround hlt
  rw [ignores_run_file (depth + 1), hrest _ (Nat.le_succ_of_le hbound)] at hfile
  rw [parseLexemes, parseLexemes, hall _ (Nat.le_refl _), hrest _ (Nat.le_refl _),
    ← hall _ (Nat.le_succ_of_le hle), hfile]

end Grammar

/-! ## Texts -/

section Texts

variable {k : NodeKind} {us : List Tree} {t : Token} {ts rest : List Token} {rs : List Report}

/-- A declaration at the beginning of a text, from the tokens of the text. -/
theorem finalState_of_declaration (hfirst : forestLeaves us = t :: ts)
    (ht : t.kind.isDeclKeyword = true) (hbehind : behind .none us = .none)
    (hdeclaration :
      Lookahead.declaration? .topLevel (ahead .none (forestLeaves us ++ rest)) = some k)
    (h : Parser.RecoversReporting (Grammar.declaration k) () rs [.node k us] rest) :
    finalState (forestLeaves us ++ rest) =
      (finalState rest).framed [.node k (forestWithoutTrivia us)] rs := by
  have htrivia : t.kind.isTrivia = false := TokenKind.isTrivia_of_isDeclKeyword ht
  have hleaves : forestLeaves [.node k us] = forestLeaves us := by
    rw [forestLeaves, leaves, forestLeaves, List.append_nil]
  have hread := h .none
  rw [behind, hleaves, ← behind, hbehind] at hread
  have hends : (Lexeme.ofTokens (forestLeaves us ++ rest)).2 = (Lexeme.ofTokens rest).2 := by
    have hnone : (Lexeme.ofTokensAfter .none (forestLeaves us)).2 = .none := hbehind
    rw [Lexeme.ofTokens, Lexeme.ofTokensAfter_eq, hnone]
    rfl
  have hlt : (ahead .none rest).length < (ahead .none (forestLeaves us ++ rest)).length := by
    rw [Lexeme.length_ahead, Lexeme.length_ahead, hfirst, Token.significant, Token.significant,
      List.filter_append, List.filter_cons_of_pos (by simp [Token.isTrivia, htrivia])]
    simp only [List.length_append, List.length_cons]
    omega
  have hlexemes : ahead .none (forestLeaves us ++ rest) =
      ⟨t.kind, t.text, .none⟩ :: ahead .none (ts ++ rest) := by
    rw [hfirst, List.cons_append, Lexeme.ahead_cons htrivia]
  have hparse : finalState (forestLeaves us ++ rest) =
      parseLexemes (ahead .none (forestLeaves us ++ rest)) (Lexeme.ofTokens rest).2 := by
    rw [finalState, ← hends]
    rfl
  rw [hparse]
  rw [hlexemes] at hread hlt hdeclaration ⊢
  have hwithout : forestWithoutTrivia [.node k us] = [.node k (forestWithoutTrivia us)] := rfl
  rw [hwithout] at hread
  exact Grammar.parseLexemes_of_declaration ht hdeclaration hread hlt _

/-- So the declaration is the first item of the text, and what is reported in it comes first. -/
theorem exists_parse_of_declaration {source : String}
    (hsource : lex source = forestLeaves us ++ rest) (hfirst : forestLeaves us = t :: ts)
    (ht : t.kind.isDeclKeyword = true) (hbehind : behind .none us = .none)
    (hdeclaration :
      Lookahead.declaration? .topLevel (ahead .none (forestLeaves us ++ rest)) = some k)
    (h : Parser.RecoversReporting (Grammar.declaration k) () rs [.node k us] rest)
    (hwoven : (weaveForest (forestWithoutTrivia us) (forestLeaves us ++ rest)).1 = us) :
    ∃ items problems, (parse source).tree = .node .sourceFile (.node k us :: items) ∧
      (parse source).diagnostics.map Diagnostic.problem =
        rs.reverse.map Report.problem ++ problems := by
  have hstate := finalState_of_declaration hfirst ht hbehind hdeclaration h
  have hmore : forestLeaves us ++ rest = t :: (ts ++ rest) := by rw [hfirst, List.cons_append]
  have htrivia := TokenKind.isTrivia_of_isDeclKeyword ht
  refine ⟨(rootWithTrivia (finalState rest).built.reverse
      (weaveForest (forestWithoutTrivia us) (forestLeaves us ++ rest)).2).children,
    (finalState rest).reports.reverse.map Report.problem, ?_, ?_⟩
  · rw [parse, hsource, tree_parseTokens, hstate, State.framed, List.reverse_append,
      List.reverse_singleton, List.singleton_append, rootWithTrivia_node hmore htrivia, hwoven]
  · rw [parse, hsource, diagnostics_parseTokens, hstate, Report.locateAll_eq, State.framed,
      List.reverse_append, List.map_map, List.map_append]
    rfl

end Texts

end SwiftOutline
