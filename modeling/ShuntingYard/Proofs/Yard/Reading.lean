import ShuntingYard.Proofs.Yard.Passage
import ShuntingYard.Proofs.Yard.Stack

namespace ShuntingYard.Yard

-- The pieces keep to themselves: on any stack that `top` rests on, they let `settled` go, leave
-- `waiting` behind and touch nothing below. `top` is the operator that holds them together, if
-- neither a parenthesis nor a single operand does.
def Reads (pieces : List Piece) (top : Option Operator) (settled : List Token)
    (waiting : List Operator) : Prop :=
  ∀ stack, (∀ op ∈ top, Rests op stack) →
    ∃ emitted, Passes pieces stack emitted (waiting.map .operator ++ stack) ∧
      emitted.map Emission.token = settled

theorem Reads.operand (n : Number) : Reads [.operand n] none [.operand n] [] :=
  fun _ _ => ⟨[.read n], .one rfl, rfl⟩

theorem Reads.blankBefore (inner : Reads pieces top settled waiting) :
    Reads (.blank :: pieces) top settled waiting := by
  intro stack rests
  obtain ⟨emitted, passed, tokens⟩ := inner stack rests
  exact ⟨emitted, .quiet rfl passed, tokens⟩

theorem Reads.blankAfter (inner : Reads pieces top settled waiting) :
    Reads (pieces ++ [.blank]) top settled waiting := by
  intro stack rests
  obtain ⟨emitted, passed, tokens⟩ := inner stack rests
  refine ⟨emitted ++ [], passed.append (.one rfl), ?_⟩
  rw [List.append_nil, tokens]

theorem Reads.enclosed (inner : Reads pieces top settled waiting) :
    Reads (.paren .left :: pieces ++ [.paren .right]) none (settled ++ waiting.map .operator) [] := by
  intro stack _
  obtain ⟨emitted, passed, tokens⟩ := inner (.opening :: stack) (fun _ _ => trivial)
  have shut : shift (waiting.map .operator ++ .opening :: stack) (.paren .right) =
      .ok (waiting.map .closed, stack) := by
    simp only [shift, toOpening_waiting]
  refine ⟨emitted ++ waiting.map .closed, .quiet rfl (passed.append (.one shut)), ?_⟩
  rw [List.map_append, tokens, map_closed]

theorem Reads.arrive (inner : Reads pieces top settled (overtaken ++ kept))
    (yields : ∀ d ∈ overtaken, op.yieldsTo d) (stays : ∀ d ∈ kept.head?, ¬ op.yieldsTo d)
    (guarded : ∀ c ∈ top, ∀ d, ¬ op.yieldsTo d → ¬ c.yieldsTo d) :
    Reads (pieces ++ [.operator op]) (some op) (settled ++ overtaken.map .operator)
      (op :: kept) := by
  intro stack rests
  have resting : Rests op stack := rests op rfl
  have innerRests : ∀ c ∈ top, Rests c stack := by
    intro c isTop
    cases stack with
    | nil => trivial
    | cons held below =>
      cases held with
      | opening => trivial
      | operator d => exact guarded c isTop d resting
  have keptRests : Rests op (kept.map .operator ++ stack) := by
    cases kept with
    | nil => exact resting
    | cons d others => exact stays d rfl
  obtain ⟨emitted, passed, tokens⟩ := inner stack innerRests
  rw [List.map_append, List.append_assoc] at passed
  have arrived : shift (overtaken.map .operator ++ (kept.map .operator ++ stack)) (.operator op) =
      .ok (overtaken.map .overtaken, .operator op :: (kept.map .operator ++ stack)) := by
    simp only [shift, release_waiting yields keptRests]
  refine ⟨emitted ++ overtaken.map .overtaken, passed.append (.one arrived), ?_⟩
  rw [List.map_append, tokens, map_overtaken]

theorem Reads.overtake (inner : Reads pieces top settled waiting)
    (yields : ∀ d ∈ waiting, op.yieldsTo d) (yieldsTop : ∀ c ∈ top, op.yieldsTo c) :
    Reads (pieces ++ [.operator op]) (some op) (settled ++ waiting.map .operator) [op] := by
  rw [← List.append_nil waiting] at inner
  refine inner.arrive yields (by simp) ?_
  intro c isTop d stays yielding
  exact stays (Operator.yieldsTo_trans (yieldsTop c isTop) yielding)

theorem Reads.repeated (inner : Reads pieces top settled waiting) (stays : ¬ op.yieldsTo op)
    (only : ∀ c ∈ top, c = op) (same : ∀ d ∈ waiting, d = op) :
    Reads (pieces ++ [.operator op]) (some op) settled (op :: waiting) := by
  have arrived : Reads (pieces ++ [.operator op]) (some op) (settled ++ [].map .operator)
      (op :: waiting) := by
    refine Reads.arrive inner (by simp) ?_ ?_
    · intro d first
      rwa [same d (List.mem_of_mem_head? first)]
    · intro c isTop d staysOnIt
      rwa [only c isTop]
  rwa [List.map_nil, List.append_nil] at arrived

theorem append_same {waiting : List Operator} (same : ∀ d ∈ waiting, d = op) :
    waiting ++ [op] = op :: waiting := by
  rw [List.eq_replicate_of_mem same, ← List.replicate_succ', List.replicate_succ]

theorem Reads.follow (front : Reads before (some op) settled (op :: kept))
    (back : Reads after top later waiting) (above : ∀ c ∈ top, ¬ c.yieldsTo op) :
    Reads (before ++ after) (some op) (settled ++ later) (waiting ++ op :: kept) := by
  intro stack rests
  obtain ⟨emitted, passed, tokens⟩ := front stack rests
  obtain ⟨further, passedOn, others⟩ := back (.operator op :: (kept.map .operator ++ stack)) above
  refine ⟨emitted ++ further, ?_, ?_⟩
  · rw [List.map_append, List.append_assoc]
    exact passed.append passedOn
  · rw [List.map_append, tokens, others]

theorem Reads.finish (read : Reads pieces top settled waiting) :
    (feed pieces []).fault = none ∧
      (feed pieces []).emitted.map Emission.token = settled ++ waiting.map .operator := by
  obtain ⟨emitted, passed, tokens⟩ := read [] (fun _ _ => trivial)
  have fed : feed (pieces ++ []) [] = _ := passed.feed
  rw [List.append_nil, List.append_nil] at fed
  rw [fed]
  simp only [feed, Yard.finish, drain_waiting, List.map_append, tokens, map_ended]
  exact ⟨trivial, trivial⟩

-- What waits on a stack is held together by `top`: whoever yields to that yields to all of it. An
-- operator of one operand holds only repetitions of itself together.
structure Cohesive (top : Option Operator) (waiting : List Operator) : Prop where
  yields : ∀ {op : Operator}, (∀ c ∈ top, op.yieldsTo c) → ∀ d ∈ waiting, op.yieldsTo d
  alike : ∀ c ∈ top, c.arity = 1 → ∀ d ∈ waiting, d = c

theorem Cohesive.repeated (same : ∀ d ∈ waiting, d = op) : Cohesive (some op) (op :: waiting) where
  yields yieldsTop d waits := by
    rcases List.mem_cons.mp waits with rfl | inOperand
    · exact yieldsTop d rfl
    · exact same d inOperand ▸ yieldsTop op rfl
  alike c isTop _ d waits := by
    cases Option.some.inj isTop
    rcases List.mem_cons.mp waits with rfl | inOperand
    · rfl
    · exact same d inOperand

theorem Cohesive.follow (two : op.arity = 2) (right : Cohesive second waiting)
    (above : ∀ c ∈ second, ¬ c.yieldsTo op)
    (under : ∀ {arriving : Operator}, arriving.yieldsTo op → ∀ d ∈ kept, arriving.yieldsTo d) :
    Cohesive (some op) (waiting ++ op :: kept) where
  yields yieldsTop d waits := by
    have yieldsOp := yieldsTop op rfl
    rcases List.mem_append.mp waits with inRight | below
    · exact right.yields (fun c isTop => Operator.yieldsTo_above yieldsOp (above c isTop)) d inRight
    · rcases List.mem_cons.mp below with rfl | inKept
      · exact yieldsOp
      · exact under yieldsOp d inKept
  alike c isTop one := by
    cases Option.some.inj isTop
    omega

-- The pieces read as these tokens, the last of which may still wait when the pieces end.
def ReadsAs (pieces : List Piece) (top : Option Operator) (tokens : List Token) : Prop :=
  ∃ settled waiting, Reads pieces top settled waiting ∧ Cohesive top waiting ∧
    settled ++ waiting.map .operator = tokens

theorem ReadsAs.operand (n : Number) : ReadsAs [.operand n] none [.operand n] :=
  ⟨[.operand n], [], .operand n, ⟨by simp, by simp⟩, rfl⟩

theorem ReadsAs.blankBefore (inner : ReadsAs pieces top tokens) :
    ReadsAs (.blank :: pieces) top tokens := by
  obtain ⟨settled, waiting, read, cohesive, same⟩ := inner
  exact ⟨settled, waiting, read.blankBefore, cohesive, same⟩

theorem ReadsAs.blankAfter (inner : ReadsAs pieces top tokens) :
    ReadsAs (pieces ++ [.blank]) top tokens := by
  obtain ⟨settled, waiting, read, cohesive, same⟩ := inner
  exact ⟨settled, waiting, read.blankAfter, cohesive, same⟩

theorem ReadsAs.enclosed (inner : ReadsAs pieces top tokens) :
    ReadsAs (.paren .left :: pieces ++ [.paren .right]) none tokens := by
  obtain ⟨settled, waiting, read, -, same⟩ := inner
  exact ⟨_, [], read.enclosed, ⟨by simp, by simp⟩, by simpa using same⟩

theorem ReadsAs.binary (two : op.arity = 2) (left : ReadsAs before first leftTokens)
    (right : ReadsAs after second rightTokens) (yields : ∀ c ∈ first, op.yieldsTo c)
    (above : ∀ c ∈ second, ¬ c.yieldsTo op) :
    ReadsAs (before ++ .operator op :: after) (some op)
      (leftTokens ++ rightTokens ++ [.operator op]) := by
  obtain ⟨leftSettled, leftWaiting, leftRead, leftCohesive, rfl⟩ := left
  obtain ⟨rightSettled, rightWaiting, rightRead, rightCohesive, rfl⟩ := right
  have arrived := leftRead.overtake (leftCohesive.yields yields) yields
  have whole := arrived.follow rightRead above
  rw [List.append_assoc] at whole
  exact ⟨_, rightWaiting ++ [op], whole, rightCohesive.follow two above (by simp), by simp⟩

-- The operand is through, or all that waits of it is the same operator over again, and then it
-- makes no difference which of these leaves first.
theorem ReadsAs.unary (one : op.arity = 1) (operand : ReadsAs before first tokens)
    (bare : ∀ c ∈ first, op.yieldsTo c ∨ c = op) :
    ReadsAs (before ++ [.operator op]) (some op) (tokens ++ [.operator op]) := by
  obtain ⟨settled, waiting, read, cohesive, rfl⟩ := operand
  by_cases yields : ∀ c ∈ first, op.yieldsTo c
  · exact ⟨_, [op], read.overtake (cohesive.yields yields) yields, ⟨by simp, by simp⟩, rfl⟩
  · have repeats : first = some op ∧ ¬ op.yieldsTo op := by
      cases first with
      | none => simp at yields
      | some c =>
        have stays : ¬ op.yieldsTo c := by simpa using yields
        rcases bare c rfl with yielding | rfl
        · exact absurd yielding stays
        · exact ⟨rfl, stays⟩
    obtain ⟨rfl, stays⟩ := repeats
    have same : ∀ d ∈ waiting, d = op := cohesive.alike op rfl one
    exact ⟨_, op :: waiting, read.repeated stays (by simp) same, .repeated same,
      by simp [← append_same same]⟩

end ShuntingYard.Yard
