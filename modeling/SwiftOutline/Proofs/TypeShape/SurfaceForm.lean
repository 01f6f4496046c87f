/-
  SwiftOutline.Proofs.TypeShape.SurfaceForm

  Two declarations whose types differ only in how collections and optionals are
  spelled. Both are parsed without problems, each spelling by its own rules of the
  grammar, and the types that the outline tells of them are the same once all
  collections are spelled by name and the texts of types are left out.
-/
import SwiftOutline.Proofs.TypeShape.Parsed
import SwiftOutline.Proofs.TypeShape.Readings
import SwiftOutline.Proofs.TypeShape.RoundTrip

namespace SwiftOutline

open SwiftOutline.Tree Grammar

namespace TypeShape

variable {u u' : Tree} {source source' : String}

/-- Two type expressions that differ by respelling have the same shape, with the same flags of
    optionality and the same types inside, up to how collections are spelled and the texts of
    types: wherever they stand with no mark behind them and nothing around them that wraps types,
    and in particular as the types of constants, whose declarations are texts without problems. -/
theorem withForm_type_of_respelled (h : Respelled u u') (hu : FormsTree .type u)
    (hu' : FormsTree .type u') (hsource : lex source = (constantTree u).leaves)
    (hsource' : lex source' = (constantTree u').leaves) (m : ViewMode) :
    (∀ c d : Cursor, c.tree = u → d.tree = u' → Apart c → Apart d →
      ((classify c).withForm .generic).untexted = ((classify d).withForm .generic).untexted) ∧
    (parse source).ok = true ∧ (parse source').ok = true ∧
    ∃ header place b header' place' b',
      Outline.ofSource m source = [.mk header place (.binding b)] ∧
      Outline.ofSource m source' = [.mk header' place' (.binding b')] ∧
      header.name = "value" ∧ header'.name = "value" ∧
      (b.type.withForm .generic).untexted = (b'.type.withForm .generic).untexted := by
  obtain ⟨r, hr, hr'⟩ := h.exists_reads
  have hparse := parse_constant hu hsource
  have hparse' := parse_constant hu' hsource'
  obtain ⟨header, place, b, houtline, hname, htype, -⟩ :=
    outline_constant m hr.isType (congrArg Parse.tree hparse)
  obtain ⟨header', place', b', houtline', hname', htype', -⟩ :=
    outline_constant m hr'.isType (congrArg Parse.tree hparse')
  refine ⟨fun c d hc hd => h.unspelled_classify hc hd, by rw [hparse]; rfl, by rw [hparse']; rfl,
    header, place, b, header', place', b', houtline, houtline', hname, hname', ?_⟩
  rw [htype, htype']
  exact h.unspelled_classify (c := .ofAscribed u) (d := .ofAscribed u') rfl rfl
    (apart_ofAscribed u) (apart_ofAscribed u')

/-- `[String: [Int]?]` and `Dictionary<String, Optional<Array<Int>>>`. -/
theorem withForm_type_of_bracketed :
    let u := dictionaryTree (namedTree "String") (markedTree true (arrayTree (namedTree "Int")))
    let u' := genericPairTree "Dictionary" (namedTree "String")
      (genericTree "Optional" (genericTree "Array" (namedTree "Int")))
    let source := "let value: [String: [Int]?]"
    let source' := "let value: Dictionary<String, Optional<Array<Int>>>"
    Respelled u u' ∧ FormsTree .type u ∧ FormsTree .type u' ∧
      lex source = (constantTree u).leaves ∧ lex source' = (constantTree u').leaves ∧
      ∃ header place b header' place' b',
        Outline.ofSource .fixedUp source = [.mk header place (.binding b)] ∧
        Outline.ofSource .fixedUp source' = [.mk header' place' (.binding b')] ∧
        (b.type.withForm .generic).untexted = (b'.type.withForm .generic).untexted := by
  intro u u' source source'
  have hfixed : ∀ n, isStandard (unqualified n) 0 = false → Respelled (namedTree n) (namedTree n) :=
    fun n hn => .fixed (.named fun name arguments h => by
      obtain ⟨rfl, rfl⟩ := Prod.mk.inj (Option.some.inj h)
      simpa using hn)
  have hargument : ∀ t, t.isTriviaLeaf = false → IsGenericArgument t (.node .genericArgument [t]) :=
    fun t ht => .intro (by simp [parts, children, ht])
  have hone : ∀ n t, t.isTriviaLeaf = false → IsGeneric n [t] (genericTree n t) :=
    fun n t ht => @IsGeneric.intro n [t] [⟨.ident, n⟩] _ _ (by simp) rfl
      (.intro rfl (.last rfl) (.cons (hargument t ht) .nil))
  have htwo : ∀ n t t', t.isTriviaLeaf = false → t'.isTriviaLeaf = false →
      IsGeneric n [t, t'] (genericPairTree n t t') :=
    fun n t t' ht ht' => @IsGeneric.intro n [t, t'] [⟨.ident, n⟩] _ _ (by simp) rfl
      (.intro rfl (.cons rfl (.last rfl)) (.cons (hargument t ht) (.cons (hargument t' ht') .nil)))
  have harray : Respelled (arrayTree (namedTree "Int")) (genericTree "Array" (namedTree "Int")) :=
    .array (.bracket rfl rfl) (.generic (hone _ _ rfl)) (hfixed "Int" rfl)
  have hoptional : Respelled (markedTree true (arrayTree (namedTree "Int")))
      (genericTree "Optional" (genericTree "Array" (namedTree "Int"))) :=
    .optional (.marked ⟨by decide, by decide⟩ rfl) (.generic (hone _ _ rfl)) harray
  have hu : Respelled u u' := .dictionary (.bracket rfl rfl rfl) (.generic (htwo _ _ _ rfl rfl))
    (hfixed "String" rfl) hoptional
  have hint : FormsTree .type (namedTree "Int") := (FormsTree.named (by decide)).type
  have hstring : FormsTree .type (namedTree "String") := (FormsTree.named (by decide)).type
  have hbracketed : FormsTree .type u := (hstring.dictionary (hint.array.marked true).type).type
  have hgeneric : FormsTree .type u' := (FormsTree.genericTwo (by decide) hstring
    (FormsTree.genericOne (by decide) (FormsTree.genericOne (by decide) hint).type).type).type
  have hlex : lex source = (constantTree u).leaves := by decide +kernel
  have hlex' : lex source' = (constantTree u').leaves := by decide +kernel
  obtain ⟨-, -, -, header, place, b, header', place', b', houtline, houtline', -, -, htypes⟩ :=
    withForm_type_of_respelled hu hbracketed hgeneric hlex hlex' .fixedUp
  exact ⟨hu, hbracketed, hgeneric, hlex, hlex', header, place, b, header', place', b', houtline,
    houtline', htypes⟩

end TypeShape

end SwiftOutline
