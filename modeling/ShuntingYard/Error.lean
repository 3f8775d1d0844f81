import ShuntingYard.Program

namespace ShuntingYard

inductive OperateError where
  | argumentCount (symbol : Char) (expected got : Nat)
  | notOperand (symbol : Char)
  | unsupported (symbol : Char)
  | overflow (symbol : Char)
  | divideByZero (symbol : Char)
  deriving DecidableEq

namespace OperateError

def symbol : OperateError → Char
  | argumentCount c _ _ => c
  | notOperand c => c
  | unsupported c => c
  | overflow c => c
  | divideByZero c => c

def message : OperateError → String
  | argumentCount c expected got =>
    s!"operator '{c}' expects {expected} arguments, got {got}"
  | notOperand c => s!"operator '{c}' received a non-operand argument"
  | unsupported c => s!"operator '{c}' is not implemented by this provider"
  | overflow c => s!"integer overflow applying '{c}'"
  | divideByZero c => s!"integer division by zero applying '{c}'"

end OperateError

inductive ParseFault where
  | unbalanced
  | stray (c : Char)
  deriving DecidableEq

def ParseFault.message : ParseFault → String
  | unbalanced => "mismatched parentheses"
  | stray c => s!"invalid character '{c}'"

inductive EvalFault where
  | noProvider (symbol : Char)
  | tooFewOperands (symbol : Char)
  | failed (symbol : Char) (cause : OperateError)
  | notReduced
  deriving DecidableEq

namespace EvalFault

def message (program : Program) : EvalFault → String
  | noProvider c => s!"no provider found for operator '{c}'"
  | tooFewOperands c => s!"not enough operands for '{c}'"
  | failed c _ => s!"error applying operator '{c}'"
  | notReduced => s!"invalid expression '{program.text}'"

def cause? : EvalFault → Option OperateError
  | failed _ cause => some cause
  | _ => none

end EvalFault

inductive Error where
  | parse (fault : ParseFault) (source : String)
  | evaluation (fault : EvalFault) (program : Program)
  | noProviders
  | conversion (value : Number) (target : Target)
  deriving DecidableEq

namespace Error

def message : Error → String
  | parse fault source => s!"{fault.message} (in '{source}')"
  | evaluation fault program =>
    s!"{fault.message program} (in '{program.source}', rpn '{program.text}')"
  | noProviders => "at least one operator provider is required"
  | conversion value target => s!"cannot convert {value.text} to {target.label}"

def source? : Error → Option String
  | parse _ source => some source
  | evaluation _ program => some program.source
  | noProviders => none
  | conversion _ _ => none

end Error
end ShuntingYard
