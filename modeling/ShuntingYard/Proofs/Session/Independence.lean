import ShuntingYard.Proofs.Engine.Afresh
import ShuntingYard.Proofs.Session.Lines

namespace ShuntingYard.Session
open Engine
variable {e : Engine}

abbrev Ready (e : Engine) : Prop := Steady arithmetic.registry [true] e

theorem ready_arithmetic : Ready .arithmetic := builtIn_arithmetic.steady

theorem parse_ready (ready : Ready e) (source : String) :
    (e.parse source).1 = (arithmetic.parse source).1 ∧ Ready (e.parse source).2 := by
  refine ⟨?_, ready.parsed ranked_arithmetic source⟩
  rw [ready.parse ranked_arithmetic, ready_arithmetic.parse ranked_arithmetic]

theorem evaluate_ready {other : Engine} (ready : Ready e) (also : Ready other) (program : Program) :
    (e.evaluate program).1 = (other.evaluate program).1 ∧ Ready (e.evaluate program).2 := by
  refine ⟨?_, ready.evaluated ranked_arithmetic program⟩
  rw [ready.evaluate ranked_arithmetic, also.evaluate ranked_arithmetic]

theorem showProgram_ready (ready : Ready e) (source : String) :
    (showProgram e source).1 = (showProgram .arithmetic source).1 ∧
      Ready (showProgram e source).2 := by
  obtain ⟨same, later⟩ := parse_ready ready source
  unfold showProgram
  dsimp only
  rw [same]
  split <;> exact ⟨rfl, later⟩

theorem evaluateLine_ready (ready : Ready e) (line : String) :
    (evaluateLine e line).1 = (evaluateLine .arithmetic line).1 ∧
      Ready (evaluateLine e line).2 := by
  obtain ⟨same, later⟩ := parse_ready ready line
  obtain ⟨-, freshly⟩ := parse_ready ready_arithmetic line
  unfold evaluateLine
  dsimp only
  rw [same]
  split
  · exact ⟨rfl, later⟩
  · rename_i program _
    obtain ⟨value, afterwards⟩ := evaluate_ready later freshly program
    rw [value]
    split <;> exact ⟨rfl, afterwards⟩

def alone (line : String) : String := (reply .arithmetic line).1

theorem reply_ready (ready : Ready e) (line : String) :
    (reply e line).1 = alone line ∧ Ready (reply e line).2 := by
  unfold alone reply
  split
  · exact showProgram_ready ready _
  · exact evaluateLine_ready ready line

theorem replies_ready (ready : Ready e) (texts : List String) :
    replies texts e = (texts.filter isAccepted).map alone := by
  induction texts generalizing e with
  | nil => rfl
  | cons line rest ih =>
    unfold replies
    dsimp only
    split
    · rename_i accepted
      obtain ⟨same, later⟩ := reply_ready ready line
      rw [List.filter_cons_of_pos accepted, List.map_cons, same, ih later]
    · rename_i blank
      rw [List.filter_cons_of_neg blank, ih ready]

theorem runAll_eq (history : Bool) (sessions : List String) :
    runAll history sessions = sessions.mapIdx fun i input =>
      greeting (history || (sessions.take i).any fun earlier => (lines earlier).any isAccepted) ++
        ((lines input).filter isAccepted).map alone := by
  induction sessions generalizing history with
  | nil => rfl
  | cons input rest ih =>
    rw [runAll, List.mapIdx_cons, ih]
    simp [run, replies_ready ready_arithmetic, Bool.or_assoc]

theorem alone_request {line source : String} (requests : Requests line source) :
    alone line = match (arithmetic.parse source).1 with
      | .ok program => program.text
      | .error error => "Parse error: " ++ error.message := by
  have asked := (programRequest?_iff line source).mpr requests
  simp only [alone, reply, asked, showProgram]
  split <;> simp [*]

theorem alone_expression {line : String} (other : ∀ source, ¬ Requests line source) :
    alone line = answerArguments [line] := by
  have none : programRequest? line = none := by
    refine Option.eq_none_iff_forall_ne_some.mpr fun source asked => ?_
    exact other source ((programRequest?_iff line source).mp asked)
  simp [alone, reply, none, answerArguments]

-- One engine answers all lines of a session, and what it answers to one of them it would have
-- answered to that line alone. All that a session takes from those before it is whether to greet.
theorem sessions_independent :
    (∀ input texts, Falls input.toList (texts.map String.toList) ↔ texts = lines input) ∧
    (∀ sessions, runAll false sessions = sessions.mapIdx fun i input =>
      (if (sessions.take i).any fun earlier => (lines earlier).any isAccepted then []
        else ["No history yet"]) ++ ((lines input).filter isAccepted).map alone) ∧
    (∀ line source, Requests line source →
      alone line = match (arithmetic.parse source).1 with
        | .ok program => program.text
        | .error error => "Parse error: " ++ error.message) ∧
    ∀ line, (∀ source, ¬ Requests line source) → alone line = answerArguments [line] := by
  refine ⟨lines_iff, fun sessions => ?_, fun line source => alone_request,
    fun line => alone_expression⟩
  rw [runAll_eq]
  simp only [Bool.false_or, greeting]

example : runAll false ["1+\r\n\n :rpn 2*3", " \n", "4!"] =
    [["No history yet", "Eval error: not enough operands for '+' (in '1+', rpn '1 +')", "2 3 *"], [],
      ["4 ! = 24"]] := by
  decide +kernel

end ShuntingYard.Session
