import ShuntingYard.Provider

namespace ShuntingYard

inductive Rule where
  | zero
  | count
  | first
  | last
  | bitAnd
  | digits
  | mean
  | overflow
  | divideByZero
  | argumentCount
  | arithmetic (symbol : Char)
  | unsupported
  deriving DecidableEq

-- A provider written down: entry by entry, the symbol it answers to, the operator it creates
-- there and the rule that this operator follows.
structure Table where
  claims : List Char
  requires : Option Char
  enabled : Bool
  entries : List (Char × Operator × Rule)
  deriving DecidableEq

namespace Rule

def average (args : List Number) : Number :=
  let total := args.foldl (fun sum n => sum + n.toFloat) 0.0
  .float (total / Number.toFloat (.integer (.ofNat args.length)))

def onOperands (op : Operator) (args : List Number) : Rule → Except OperateError Number
  | zero => .ok (.integer 0)
  | count => .ok (.integer (.ofNat args.length))
  | first =>
    match args.head? with
    | some n => .ok n
    | none => .error (.unsupported op.symbol)
  | last =>
    match args.getLast? with
    | some n => .ok n
    | none => .error (.unsupported op.symbol)
  | bitAnd => .ok (.integer (args.foldl (fun bits n => bits &&& n.toWord) (-1)))
  | digits => .ok (.integer (args.foldl (fun value n => value * 10 + n.toWord) 0))
  | mean => .ok (average args)
  | overflow => .error (.overflow op.symbol)
  | divideByZero => .error (.divideByZero op.symbol)
  | argumentCount => .error (.argumentCount op.symbol 7 args.length)
  | arithmetic _ => .error (.unsupported op.symbol)
  | unsupported => .error (.unsupported op.symbol)

-- The arithmetic rules hand the arguments over unchecked, to be checked against the built-in
-- operator instead of `op`.
def apply (op : Operator) (args : List Token) : Rule → Except OperateError Number
  | arithmetic symbol =>
    match Arithmetic.operator? symbol with
    | some builtIn => Provider.arithmetic.operate builtIn args
    | none => .error (.unsupported op.symbol)
  | rule => do rule.onOperands op (← op.operands args)

end Rule

-- Created by the first entry for a symbol, applied by the first entry for an operator.
def Table.provider (t : Table) : Provider where
  claims c := t.claims.contains c
  requires := t.requires
  enabled := t.enabled
  create c := (t.entries.find? fun entry => entry.1 == c).map fun entry => entry.2.1
  operate op args :=
    match t.entries.find? fun entry => entry.2.1.symbol == op.symbol with
    | some entry => entry.2.2.apply op args
    | none => Rule.unsupported.apply op args

end ShuntingYard
