/-
  SwiftOutline.Proofs.Events.Calls

  What a builder is told to build a given tree. Told so, it builds that tree, and
  no node is finished that is not open.
-/
import Mathlib.Data.List.Infix
import SwiftOutline.Tree.Sink
import SwiftOutline.Tree.Trivia

namespace SwiftOutline

namespace Call

/-- Whether a node is opened. -/
def isStart : Call → Bool
  | .startNode _ => true
  | _ => false

/-- Whether a node is finished. -/
def isFinish : Call → Bool
  | .finishNode => true
  | _ => false

end Call

namespace Tree

mutual

/-- What a builder is told to build a tree. -/
def calls : Tree → List Call
  | .leaf t => [.token t]
  | .node k children => .startNode k :: (forestCalls children ++ [.finishNode])

/-- What a builder is told to build a sequence of trees. -/
def forestCalls : List Tree → List Call
  | [] => []
  | t :: ts => calls t ++ forestCalls ts

end

@[simp] theorem forestCalls_append (ts us : List Tree) :
    forestCalls (ts ++ us) = forestCalls ts ++ forestCalls us := by
  induction ts with
  | nil => rfl
  | cons t ts ih => simp only [List.cons_append, forestCalls, ih, List.append_assoc]

@[simp] theorem forestCalls_leadingTrivia (ts : List Token) :
    forestCalls (leadingTrivia ts) = (ts.takeWhile Token.isTrivia).map .token := by
  rw [leadingTrivia]
  induction ts.takeWhile Token.isTrivia with
  | nil => rfl
  | cons t ts ih => rw [List.map_cons, forestCalls, ih, calls, List.map_cons, List.singleton_append]

mutual

/-- A builder adds the tree to what it has built. -/
theorem foldlM_calls (t : Tree) (b : Builder) :
    t.calls.foldlM Builder.call b = some { b with built := t :: b.built } := by
  match t with
  | .leaf t => rfl
  | .node k children =>
    rw [calls, List.foldlM_cons]
    show (forestCalls children ++ [Call.finishNode]).foldlM Builder.call
      ⟨(k, b.built) :: b.above, []⟩ = _
    rw [List.foldlM_append, foldlM_forestCalls]
    simp [Builder.call]

theorem foldlM_forestCalls (ts : List Tree) (b : Builder) :
    (forestCalls ts).foldlM Builder.call b = some { b with built := ts.reverse ++ b.built } := by
  match ts with
  | [] => rfl
  | t :: ts =>
    rw [forestCalls, List.foldlM_append, foldlM_calls]
    show (forestCalls ts).foldlM Builder.call { b with built := t :: b.built } = _
    rw [foldlM_forestCalls]
    simp

end

/-- Told what a node consists of, a builder builds it. -/
theorem ofCalls?_calls (k : NodeKind) (children : List Tree) :
    ofCalls? (calls (.node k children)) = some (.node k children) := by
  rw [ofCalls?, foldlM_calls]
  rfl

end Tree

namespace Builder

variable {b b' : Builder} {calls : List Call}

/-- As many nodes are open as have been opened and not finished. -/
theorem countP_of_call {c : Call} (h : b.call c = some b') :
    [c].countP Call.isFinish + b'.above.length = [c].countP Call.isStart + b.above.length := by
  cases c with
  | startNode k =>
    obtain rfl := Option.some.inj h
    simp [Call.isStart, Call.isFinish]
    omega
  | token t =>
    obtain rfl := Option.some.inj h
    rfl
  | finishNode =>
    cases habove : b.above with
    | nil => simp [call, habove] at h
    | cons f above =>
      simp only [call, habove, Option.some.injEq] at h
      subst h
      simp [Call.isStart, Call.isFinish]
      omega

theorem countP_of_foldlM (h : calls.foldlM call b = some b') :
    calls.countP Call.isFinish + b'.above.length =
      calls.countP Call.isStart + b.above.length := by
  induction calls generalizing b with
  | nil =>
    obtain rfl := Option.some.inj h
    rfl
  | cons c calls ih =>
    rw [List.foldlM_cons] at h
    obtain ⟨b₁, hc, hrest⟩ := Option.bind_eq_some_iff.mp h
    have hfirst := countP_of_call hc
    have hlast := ih hrest
    rw [← List.singleton_append, List.countP_append, List.countP_append]
    omega

end Builder

namespace Tree

variable {k : NodeKind} {ts : List Tree} {first : List Call}

/-- While trees are built, no more nodes are finished than opened. -/
theorem countP_le_of_prefix_forestCalls (h : first <+: forestCalls ts) :
    first.countP Call.isFinish ≤ first.countP Call.isStart := by
  obtain ⟨last, hlast⟩ := h
  have hbuild := foldlM_forestCalls ts .empty
  rw [← hlast, List.foldlM_append] at hbuild
  obtain ⟨b, hb, -⟩ := Option.bind_eq_some_iff.mp hbuild
  have hcount := Builder.countP_of_foldlM hb
  simp only [Builder.empty, List.length_nil] at hcount
  omega

/-- A node is open from what is told first to what is told last of it. -/
theorem countP_lt_of_prefix_calls (h : first <+: calls (.node k ts)) (hne : first ≠ [])
    (hall : first ≠ calls (.node k ts)) :
    first.countP Call.isFinish < first.countP Call.isStart := by
  cases first with
  | nil => exact absurd rfl hne
  | cons c first =>
    rw [calls] at h hall
    obtain ⟨rfl, hprefix⟩ := List.cons_prefix_cons.mp h
    rcases List.prefix_concat_iff.mp hprefix with heq | hforest
    · exact absurd (heq ▸ rfl) hall
    · have hle := countP_le_of_prefix_forestCalls hforest
      simp only [List.countP_cons, Call.isFinish, Call.isStart, Bool.false_eq_true, if_false,
        if_true]
      omega

/-- A node has as many starts told of it as ends. -/
theorem countP_calls (k : NodeKind) (ts : List Tree) :
    (calls (.node k ts)).countP Call.isFinish = (calls (.node k ts)).countP Call.isStart := by
  simpa using Builder.countP_of_foldlM (foldlM_calls (.node k ts) .empty)

theorem countP_le_of_prefix_calls (h : first <+: calls (.node k ts)) :
    first.countP Call.isFinish ≤ first.countP Call.isStart := by
  by_cases hne : first = []
  · simp [hne]
  · by_cases hall : first = calls (.node k ts)
    · rw [hall, countP_calls]
    · exact (countP_lt_of_prefix_calls h hne hall).le

end Tree

end SwiftOutline
