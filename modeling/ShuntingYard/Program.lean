import ShuntingYard.Number

namespace ShuntingYard

inductive Assoc where
  | left
  | right
  deriving DecidableEq

structure Operator where
  symbol : Char
  assoc : Assoc
  precedence : Nat
  arity : Nat
  deriving DecidableEq

-- Whether `top`, waiting on the stack, is applied before `arriving`. Among equals the arriving
-- operator decides, by its own associativity.
def Operator.yieldsTo (arriving top : Operator) : Bool :=
  match arriving.assoc with
  | .left => arriving.precedence ≤ top.precedence
  | .right => arriving.precedence < top.precedence

inductive Side where
  | left
  | right
  deriving DecidableEq

inductive Token where
  | operand (value : Number)
  | operator (op : Operator)
  | paren (side : Side)
  deriving DecidableEq

namespace Token

def isOperand : Token → Bool
  | operand _ => true
  | operator _ => false
  | paren _ => false

def isOperator : Token → Bool
  | operand _ => false
  | operator _ => true
  | paren _ => false

def isParen : Token → Bool
  | operand _ => false
  | operator _ => false
  | paren _ => true

def agrees : Token → Token → Bool
  | operand m, operand n => m.agrees n
  | operator a, operator b => a == b
  | paren a, paren b => a == b
  | _, _ => false

def chars : Token → List Char
  | operand n => n.chars
  | operator op => [op.symbol]
  | paren .left => ['(']
  | paren .right => [')']

def text (t : Token) : String := .ofList t.chars

end Token

-- A postfix token sequence and the text it was read from.
structure Program where
  source : String
  tokens : List Token
  deriving DecidableEq

namespace Program

def chars (p : Program) : List Char := [' '].intercalate (p.tokens.map Token.chars)

def text (p : Program) : String := .ofList p.chars

def tokensAgree (p q : Program) : Bool :=
  p.tokens.length == q.tokens.length &&
    (p.tokens.zip q.tokens).all fun pair => pair.1.agrees pair.2

-- The source text counts: `3+4` and `(3+4)` have the same tokens and do not agree.
def agrees (p q : Program) : Bool := p.source == q.source && p.tokensAgree q

end Program

end ShuntingYard
