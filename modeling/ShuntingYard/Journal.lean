import ShuntingYard.Error

namespace ShuntingYard

inductive Event where
  -- a symbol was looked up, remembered or not
  | requested (symbol : Char)
  -- the provider at this place was asked whether it claims the symbol
  | asked (provider : Nat) (symbol : Char)
  | resolved (symbol : Char) (found : Bool)
  | operandRead (value : Number)
  -- an operator left the stack because an arriving one yields to it
  | operatorReleased (op : Operator)
  | parsed (program : Program)
  | evaluated (program : Program) (value : Number)
  | gaveUp (source : String) (error : Error)
  deriving DecidableEq

namespace Event

def line? : Event → Option String
  | requested _ => none
  | asked _ _ => none
  | resolved c found => some s!"DEBUG caching provider for '{c}' (found: {found})"
  | operandRead n => some s!"TRACE operand {n.text}"
  | operatorReleased op => some s!"TRACE operator {op.symbol}"
  | parsed program => some s!"DEBUG parsed '{program.source}' as '{program.text}'"
  | evaluated program n => some s!"DEBUG evaluated '{program.text}' to {n.text}"
  | gaveUp source error => some s!"DEBUG '{source}' did not evaluate: {error.message}"

def isLookup : Event → Bool
  | requested _ => true
  | asked _ _ => true
  | resolved _ _ => true
  | _ => false

end Event

-- What has happened so far, the latest event first.
abbrev History := List Event

namespace History

def lines (history : History) : List String := (history.reverse).filterMap Event.line?

def questions (history : History) (provider : Nat) : Nat :=
  history.countP fun
    | .asked asked _ => asked == provider
    | _ => false

end History
end ShuntingYard
