import ShuntingYard.Binary
import ShuntingYard.Error

namespace ShuntingYard.Arithmetic
open Binary

def operator? : Char → Option Operator
  | '+' => some ⟨'+', .left, 1, 2⟩
  | '-' => some ⟨'-', .left, 1, 2⟩
  | '*' => some ⟨'*', .left, 2, 2⟩
  | '/' => some ⟨'/', .left, 2, 2⟩
  | '%' => some ⟨'%', .left, 2, 2⟩
  | '^' => some ⟨'^', .right, 3, 2⟩
  | '!' => some ⟨'!', .right, 3, 1⟩
  | _ => none

def exactly (symbol : Char) (k : Int) : Except OperateError Number :=
  match word? k with
  | some n => .ok (.integer n)
  | none => .error (.overflow symbol)

-- Two integers meet under `onWords`; one float makes both floats.
def promote (onWords : Int64 → Int64 → Except OperateError Number)
    (onFloats : Float → Float → Float) : Number → Number → Except OperateError Number
  | .integer m, .integer n => onWords m n
  | m, n => .ok (.float (onFloats m.toFloat n.toFloat))

def add : Number → Number → Except OperateError Number :=
  promote (fun m n => exactly '+' (m.toInt + n.toInt)) (· + ·)

def subtract : Number → Number → Except OperateError Number :=
  promote (fun m n => exactly '-' (m.toInt - n.toInt)) (· - ·)

def multiply : Number → Number → Except OperateError Number :=
  promote (fun m n => exactly '*' (m.toInt * n.toInt)) (· * ·)

-- Remainder and quotient come out of one division, so the least word by -1 overflows although
-- its remainder, zero, would fit.
def wordRemainder (m n : Int64) : Except OperateError Number :=
  if n = 0 then .error (.divideByZero '%')
  else match word? (m.toInt.tdiv n.toInt) with
    | some _ => exactly '%' (m.toInt.tmod n.toInt)
    | none => .error (.overflow '%')

def modulo : Number → Number → Except OperateError Number :=
  promote wordRemainder remainder

def divide (m n : Number) : Number := .float (m.toFloat / n.toFloat)

-- The word of a whole float. Infinities, NaN and values beyond the words overflow; the ends of the
-- range are compared as floats, and the upper one is rounded up to 2 ^ 63.
def checkedWord (symbol : Char) (x : Float) : Except OperateError Int64 :=
  if x.isFinite ∧ ofWhole Int64.minValue.toInt ≤ x ∧ x < ofWhole Int64.maxValue.toInt then
    .ok (clampedWord x)
  else .error (.overflow symbol)

-- Integers are raised as floats too and lose the fraction afterwards. How floats are raised is
-- left to `pow`, because platforms differ in the last digit.
def power (pow : Float → Float → Float) (m n : Number) : Except OperateError Number :=
  let raised := pow m.toFloat n.toFloat
  match m, n with
  | .integer _, .integer _ => (checkedWord '^' (truncated raised)).map .integer
  | _, _ => .ok (.float raised)

def foldFactors [Monad m] (times : Int64 → Nat → m Int64) : Nat → Nat → Int64 → m Int64
  | 0, _, product => pure product
  | count + 1, factor, product => do
    foldFactors times count (factor + 1) (← times product factor)

def risingProduct : Nat → Nat → Int64 → Option Int64 :=
  foldFactors fun product factor => word? (product.toInt * factor)

def wordFactorial (n : Int64) : Except OperateError Number :=
  match risingProduct n.toInt.toNat 1 1 with
  | some product => .ok (.integer product)
  | none => .error (.overflow '!')

-- Always an integer: a float goes to the nearest one first, halves to even. No integer below one
-- has factors, so its factorial is 1.
def factorial : Number → Except OperateError Number
  | .integer n => wordFactorial n
  | .float x => (checkedWord '!' (nearestEven x)).bind wordFactorial

-- The last case is for symbols that have no operation. It also stands for going to an operand that
-- is not there, where the program would break off. An operator written down with fewer operands
-- than its operation goes to leads there, one of `operator?` never does.
def apply (pow : Float → Float → Float) (symbol : Char) (args : List Number) :
    Except OperateError Number :=
  match symbol, args with
  | '!', n :: _ => factorial n
  | '^', m :: n :: _ => power pow m n
  | '*', m :: n :: _ => multiply m n
  | '/', m :: n :: _ => .ok (divide m n)
  | '%', m :: n :: _ => modulo m n
  | '+', m :: n :: _ => add m n
  | '-', m :: n :: _ => subtract m n
  | _, _ => .error (.unsupported symbol)

end ShuntingYard.Arithmetic
