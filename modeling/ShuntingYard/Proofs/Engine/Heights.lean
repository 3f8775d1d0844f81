import ShuntingYard.Proofs.Engine.Evaluation
import ShuntingYard.Proofs.Engine.Faults
import ShuntingYard.Proofs.Program.Stacking

namespace ShuntingYard

namespace Directory
variable {directory : Directory σ} {s : σ} {find : Char → Option Provider} {program : Program}
  {tokens stack : List Token} {k : Nat} {fault : EvalFault} {words : String}
  {cause : Option OperateError}

theorem reduce_breaks (fixed : ∀ c, directory.Finds s c (find c))
    (breaks : Breaks find tokens k fault words cause) (reached : Stacks find (tokens.take k) stack) :
    (directory.reduce tokens [] s).1 = .error fault :=
  congrArg Prod.fst (reduce_stuck fixed breaks reached)

theorem evaluate_broken (failed : (directory.reduce program.tokens [] s).1 = .error fault) :
    (directory.evaluate program s).1 = .error (.evaluation fault program) := by
  simp only [evaluate, failed]

theorem evaluate_value_iff (reduced : (directory.reduce program.tokens [] s).1 = .ok stack)
    (n : Number) : (directory.evaluate program s).1 = .ok n ↔ stack = [.operand n] := by
  constructor
  · intro evaluated
    exact Except.ok.inj (reduced.symm.trans (evaluate_reduced evaluated))
  · rintro rfl
    simp only [evaluate, reduced]

theorem evaluate_unreduced (reduced : (directory.reduce program.tokens [] s).1 = .ok stack)
    (many : ∀ n, stack ≠ [.operand n]) :
    (directory.evaluate program s).1 = .error (.evaluation .notReduced program) := by
  unfold evaluate
  dsimp only
  split
  · rename_i n single
    exact absurd (Except.ok.inj (reduced.symm.trans single)) (many n)
  · rfl
  · rename_i failed
    cases reduced.symm.trans failed

end Directory

namespace Engine
variable {e : Engine} {find : Char → Option Provider}

theorem evaluate_heights (program : Program)
    (fixed : ∀ c, (e.registry.directory .evaluator).Finds e.state c (find c)) :
    let tokens := program.tokens
    (∀ k stack, Stacks find (tokens.take k) stack → height (tokens.take k) = stack.length) ∧
    (∀ k op next, tokens[k]? = some (.operator op) → Stacks find (tokens.take (k + 1)) next →
      op.arity ≤ height (tokens.take k)) ∧
    (∀ k fault words cause, Breaks find tokens k fault words cause →
      (∀ j < k, ∀ fault words cause, ¬ Breaks find tokens j fault words cause) →
        e.Fails program fault words ∧ fault.cause? = cause) ∧
    ((∀ k fault words cause, ¬ Breaks find tokens k fault words cause) →
      ∃ stack, Stacks find tokens stack ∧
        (∀ n, (e.evaluate program).1 = .ok n ↔
          height tokens = 1 ∧ stack.head? = some (.operand n)) ∧
        ((∀ n, ¬ (height tokens = 1 ∧ stack.head? = some (.operand n))) →
          e.Fails program .notReduced s!"invalid expression '{program.text}'")) := by
  intro tokens
  refine ⟨fun k stack => Stacks.height, ?_, ?_, ?_⟩
  · intro k op next here reached
    rw [List.take_add_one, here] at reached
    obtain ⟨stack, before, moves⟩ := reached.before
    rw [before.height]
    exact Int.ofNat_le.mpr moves.enough
  · intro k fault words cause breaks unbroken
    obtain ⟨stack, reached⟩ := stacks_unbroken breaks.within unbroken
    have failed := Directory.evaluate_broken (Directory.reduce_breaks fixed breaks reached)
    exact ⟨⟨failed, breaks.told program⟩, breaks.cause_kept⟩
  · intro unbroken
    obtain ⟨stack, reached⟩ := stacks_unbroken le_rfl fun j _ => unbroken j
    rw [List.take_length] at reached
    obtain ⟨t, -, reduced⟩ := Directory.reduce_stacks fixed reached
    have ended : ((e.registry.directory .evaluator).reduce tokens [] e.state).1 = .ok stack :=
      congrArg Prod.fst (by simpa [Directory.reduce] using reduced [])
    have single (n : Number) :
        stack = [.operand n] ↔ (stack.length : Int) = 1 ∧ stack.head? = some (.operand n) := by
      rcases stack with _ | ⟨top, _ | ⟨second, below⟩⟩ <;> simp
      omega
    rw [reached.height]
    refine ⟨stack, reached, fun n => ?_, fun many => ⟨?_, rfl⟩⟩
    · exact (Directory.evaluate_value_iff ended n).trans (single n)
    · exact Directory.evaluate_unreduced ended fun n => mt (single n).mp (many n)

theorem evaluate_heights_parenthesis :
    let find := holder ternary.registry [true]
    let program : Program := ⟨"handmade", [.operand (.integer 4), .operand (.integer 3),
      .paren .left, .operator ⟨'?', .left, 1, 3⟩]⟩
    (∀ c, (ternary.registry.directory .evaluator).Finds ternary.state c (find c)) ∧
      height (program.tokens.take 3) = 3 ∧
      Breaks find program.tokens 3 (.failed '?' (.notOperand '?')) "error applying operator '?'"
        (some (.notOperand '?')) ∧
      ternary.Fails program (.failed '?' (.notOperand '?')) "error applying operator '?'" := by
  intro find program
  have fixed : ∀ c, (ternary.registry.directory .evaluator).Finds ternary.state c (find c) :=
    Registry.finds_owner ranked_ternary (ternary.registry.faithful_start true) .evaluator
  have reached : Stacks find (program.tokens.take 3)
      ([.operand (.integer 4), .operand (.integer 3), .paren .left].reverse ++ []) :=
    .step (.step (.step .nil .operand) .operand) .paren
  have breaks : Breaks find program.tokens 3 (.failed '?' (.notOperand '?'))
      "error applying operator '?'" (some (.notOperand '?')) :=
    .refused rfl rfl (by decide) reached rfl rfl
  obtain ⟨-, -, stops, -⟩ := evaluate_heights program fixed
  refine ⟨fixed, by decide, breaks, (stops 3 _ _ _ breaks ?_).1⟩
  -- No operator stands before it.
  intro j before fault words cause earlier
  obtain ⟨op, here⟩ := earlier.operator
  rcases j with _ | _ | _ | j
  · cases here
  · cases here
  · cases here
  · omega

end Engine
end ShuntingYard
