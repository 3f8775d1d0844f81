import Mathlib
import ShuntingYard.Proofs.Arithmetic.Faults
import ShuntingYard.Proofs.Engine.Afresh
import ShuntingYard.Proofs.Program.Progress
import ShuntingYard.Proofs.Yard.Moment

namespace ShuntingYard

namespace Arithmetic
variable {op : Operator} {ns : List Number} {cause : OperateError} {fault : EvalFault}

-- What stops an evaluation at a built-in operator, and how this is told.
inductive Stops (op : Operator) : EvalFault → String → Prop where
  | tooFew : Stops op (.tooFewOperands op.symbol) s!"not enough operands for '{op.symbol}'"
  | overflow (noQuotient : op.symbol ≠ '/') :
      Stops op (.failed op.symbol (.overflow op.symbol)) s!"error applying operator '{op.symbol}'"
  | divideByZero (remainder : op.symbol = '%') :
      Stops op (.failed '%' (.divideByZero '%')) "error applying operator '%'"

theorem operate_raises (known : operator? op.symbol = some op) (fits : ns.length = op.arity)
    (failed : Provider.arithmetic.operate op (ns.map .operand) = .error cause) :
    Raises op.symbol cause := by
  have applied : Provider.arithmetic.operate op (ns.map .operand) = apply Float.pow op.symbol ns := by
    simp only [Provider.arithmetic, Provider.arithmeticWith, Operator.operands_numbers fits]
    rfl
  exact apply_raises (supported known fits) (applied.symm.trans failed)

theorem replaceArguments_stops (known : operator? op.symbol = some op)
    (stuck : op.replaceArguments (pushed ns) (some .arithmetic) = .error fault) (program : Program) :
    Stops op fault (fault.message program) := by
  unfold Operator.replaceArguments at stuck
  dsimp only at stuck
  split at stuck
  · cases stuck
    exact .tooFew
  · rename_i taken
    obtain ⟨front, back, -, fits, rfl, rfl⟩ := takeArguments_split taken
    split at stuck
    · cases stuck
    · rename_i failed
      cases stuck
      have raised := operate_raises known fits failed
      generalize same : op.symbol = c at raised
      cases raised with
      | overflow noQuotient =>
        subst same
        exact .overflow noQuotient
      | divideByZero => exact .divideByZero same

end Arithmetic

namespace Engine
open Arithmetic
variable {e later : Engine} {op : Operator} {source : String} {program : Program}

theorem holder_arithmetic (known : operator? c = some op) :
    holder arithmetic.registry [true] c = some .arithmetic := by
  rw [holder, owner_arithmetic, known]
  rfl

theorem BuiltIn.listed (builtIn : e.BuiltIn) (accepted : (e.parse source).1 = .ok program)
    (listed : .operator op ∈ program.tokens) :
    operator? op.symbol = some op ∧ op.symbol ∈ source.toList := by
  rw [builtIn.steady.parse ranked_arithmetic] at accepted
  obtain ⟨c, _, created⟩ := Directory.parse_created accepted listed
  have written : c ∈ source.toList := created.from_text
  obtain ⟨-, -, -, answer⟩ := created
  have known : operator? c = some op := by
    rw [← operatorOf_arithmetic]
    exact answer
  rw [symbol_eq known]
  exact ⟨known, written⟩

def Fails (e : Engine) (program : Program) (fault : EvalFault) (words : String) : Prop :=
  (e.evaluate program).1 = .error (.evaluation fault program) ∧ fault.message program = words

theorem BuiltIn.comes (builtIn : e.BuiltIn) (also : later.BuiltIn)
    (accepted : (e.parse source).1 = .ok program)
    (comes : (later.registry.directory .evaluator).ComesTo program.tokens later.state op stack t) :
    operator? op.symbol = some op ∧ op.symbol ∈ source.toList ∧
      ((later.registry.directory .evaluator).find op.symbol t).1 = some .arithmetic ∧
      ∃ ns, stack = pushed ns := by
  have parsed : ((e.registry.directory .parser).parse source e.state).1 = .ok program := accepted
  obtain ⟨known, written⟩ := builtIn.listed accepted comes.listed
  have found := also.steady.finds ranked_arithmetic .evaluator op.symbol t comes.works.reaches
  rw [holder_arithmetic known] at found
  exact ⟨known, written, found, comes.numbers (Directory.parse_plain parsed)⟩

theorem evaluate_parsed (builtIn : e.BuiltIn) (also : later.BuiltIn)
    (accepted : (e.parse source).1 = .ok program) :
    let directory := later.registry.directory .evaluator
    ((∃ n, (later.evaluate program).1 = .ok n) ∨
      later.Fails program .notReduced s!"invalid expression '{program.text}'" ∨
      ∃ op fault words, later.Fails program fault words ∧ Stops op fault words ∧
        op.symbol ∈ source.toList ∧ directory.StopsAt program.tokens later.state op fault) ∧
    ∀ op stack t, directory.ComesTo program.tokens later.state op stack t →
      (directory.find op.symbol t).1 = some .arithmetic ∧
      ∀ args below, takeArguments op.arity [] stack = some (args, below) →
        ∃ ns, op.operands args = .ok ns ∧ ∀ i ∈ accesses op.symbol, i < ns.length := by
  intro directory
  refine ⟨?_, fun op stack t comes => ?_⟩
  · cases evaluated : (directory.evaluate program later.state).1 with
    | ok n => exact .inl ⟨n, evaluated⟩
    | error error =>
      rcases Directory.evaluate_error evaluated with rfl | ⟨op, fault, rfl, comes, stuck⟩
      · exact .inr (.inl ⟨evaluated, rfl⟩)
      · obtain ⟨known, written, found, ns, rfl⟩ := builtIn.comes also accepted comes
        have stops := replaceArguments_stops known (found ▸ stuck) program
        exact .inr (.inr ⟨op, fault, _, ⟨evaluated, rfl⟩, stops, written, .intro comes stuck⟩)
  · obtain ⟨known, -, found, ns, rfl⟩ := builtIn.comes also accepted comes
    refine ⟨found, fun args below taken => ?_⟩
    obtain ⟨front, back, -, fits, rfl, rfl⟩ := takeArguments_split taken
    refine ⟨back, op.operands_numbers fits, fun i accessed => ?_⟩
    rw [fits]
    exact (accesses_known known).2 i accessed

theorem evaluate_parsed_zero :
    let percent : Operator := ⟨'%', .left, 2, 2⟩
    let program : Program :=
      ⟨"7%0", [.operand (.integer 7), .operand (.integer 0), .operator percent]⟩
    (arithmetic.parse "7%0").1 = .ok program ∧
      arithmetic.Fails program (.failed '%' (.divideByZero '%')) "error applying operator '%'" ∧
      (∃ op, Stops op (.failed '%' (.divideByZero '%')) "error applying operator '%'" ∧
        (arithmetic.registry.directory .evaluator).StopsAt program.tokens arithmetic.state op
          (.failed '%' (.divideByZero '%'))) ∧
      ∃ ns, percent.operands [.operand (.integer 7), .operand (.integer 0)] = .ok ns ∧
        ∀ i ∈ accesses '%', i < ns.length := by
  intro percent program
  have accepted : (arithmetic.parse "7%0").1 = .ok program := by cbv
  have fails : (arithmetic.evaluate program).1 =
      .error (.evaluation (.failed '%' (.divideByZero '%')) program) := by
    cbv
  have comes : (arithmetic.registry.directory .evaluator).ComesTo program.tokens arithmetic.state
      percent [.operand (.integer 0), .operand (.integer 7)] arithmetic.state :=
    .intro (show program.tokens = [.operand (.integer 7), .operand (.integer 0)] ++ _ from rfl) rfl
  obtain ⟨outcome, reached⟩ := evaluate_parsed builtIn_arithmetic builtIn_arithmetic accepted
  refine ⟨accepted, ⟨fails, rfl⟩, ?_, (reached percent _ _ comes).2 _ _ rfl⟩
  rcases outcome with ⟨n, value⟩ | ⟨invalid, -⟩ | ⟨op, fault, words, ⟨failed, told⟩, stops, -, place⟩
  · cases fails.symm.trans value
  · cases fails.symm.trans invalid
  · cases fails.symm.trans failed
    cases told
    exact ⟨op, stops, place⟩

end Engine
end ShuntingYard
