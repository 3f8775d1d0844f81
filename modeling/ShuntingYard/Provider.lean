import ShuntingYard.Arithmetic
import ShuntingYard.Journal

namespace ShuntingYard

-- A source of operators. Where it `requires` a symbol, it claims its own only if the registry can
-- resolve that symbol as well. `enabled` is how it starts; a registry may switch it later.
structure Provider where
  claims : Char → Bool
  requires : Option Char := none
  enabled : Bool := true
  create : Char → Option Operator
  operate : Operator → List Token → Except OperateError Number

-- The operands among which `op` is to be applied: the count is checked before the kinds.
def Operator.operands (op : Operator) (args : List Token) : Except OperateError (List Number) :=
  if args.length = op.arity then
    args.mapM fun
      | .operand n => .ok n
      | _ => .error (.notOperand op.symbol)
  else .error (.argumentCount op.symbol op.arity args.length)

namespace Provider

def arithmeticWith (pow : Float → Float → Float) : Provider where
  claims c := (Arithmetic.operator? c).isSome
  create := Arithmetic.operator?
  operate op args := do Arithmetic.apply pow op.symbol (← op.operands args)

def arithmetic : Provider := arithmeticWith Float.pow

end Provider

-- Where operator symbols are looked up. A lookup may change the state behind the directory: it
-- can remember its answer and write a history.
structure Directory (σ : Type) where
  find : Char → σ → Option Provider × σ
  note : Event → σ → σ

def Directory.record (directory : Directory σ) (events : List Event) (s : σ) : σ :=
  events.foldl (fun s event => directory.note event s) s

def Directory.fixed (find : Char → Option Provider) : Directory Unit where
  find c _ := (find c, ())
  note _ _ := ()

end ShuntingYard
