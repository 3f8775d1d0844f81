import ShuntingYard.Provider

namespace ShuntingYard

-- The top `count` tokens of a stack in the order in which they were pushed, and the stack below.
def takeArguments : Nat → List Token → List Token → Option (List Token × List Token)
  | 0, args, stack => some (args, stack)
  | count + 1, args, top :: below => takeArguments count (top :: args) below
  | _ + 1, _, [] => none

-- Replaces the arguments of `op` on the stack by its value. A symbol without a provider is reported
-- before missing operands are.
def Operator.replaceArguments (op : Operator) (stack : List Token) :
    Option Provider → Except EvalFault (List Token)
  | none => .error (.noProvider op.symbol)
  | some provider =>
    match takeArguments op.arity [] stack with
    | none => .error (.tooFewOperands op.symbol)
    | some (args, below) =>
      match provider.operate op args with
      | .ok n => .ok (.operand n :: below)
      | .error cause => .error (.failed op.symbol cause)

namespace Directory

-- Works through the tokens; every token but an operator waits on the stack, a parenthesis too.
def reduce (directory : Directory σ) : List Token → List Token → σ →
    Except EvalFault (List Token) × σ
  | [], stack, s => (.ok stack, s)
  | .operator op :: rest, stack, s =>
    let found := directory.find op.symbol s
    match op.replaceArguments stack found.1 with
    | .ok stack => directory.reduce rest stack found.2
    | .error fault => (.error fault, found.2)
  | .operand n :: rest, stack, s => directory.reduce rest (.operand n :: stack) s
  | .paren side :: rest, stack, s => directory.reduce rest (.paren side :: stack) s

def evaluate (directory : Directory σ) (program : Program) (s : σ) : Except Error Number × σ :=
  let reduced := directory.reduce program.tokens [] s
  match reduced.1 with
  | .ok [.operand n] => (.ok n, directory.note (.evaluated program n) reduced.2)
  | .ok _ => (.error (.evaluation .notReduced program), reduced.2)
  | .error fault => (.error (.evaluation fault program), reduced.2)

end Directory
end ShuntingYard
