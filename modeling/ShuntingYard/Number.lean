import ShuntingYard.Binary
import ShuntingYard.Decimal.Shortest

namespace ShuntingYard
open Float.Model

inductive Number where
  | integer (value : Int64)
  | float (value : Float)
  deriving DecidableEq

namespace Number

def isFloat : Number → Bool
  | integer _ => false
  | float _ => true

def toFloat : Number → Float
  | integer n => .ofModel (.ofInt64 n)
  | float x => x

def toWord : Number → Int64
  | integer n => n
  | float x => Binary.clampedWord x

-- Comparison of values, and only within a kind: 8 and 8.0 differ, 0.0 and -0.0 agree, and NaN
-- differs from itself. So this is no equivalence, and `=` on `Number` is finer.
def agrees : Number → Number → Bool
  | integer m, integer n => m == n
  | float x, float y => x.beq y
  | integer _, float _ => false
  | float _, integer _ => false

def chars : Number → List Char
  | integer n => Decimal.wholeText n.toInt
  | float x => Decimal.doubleText x

def text (n : Number) : String := .ofList n.chars

end Number

inductive WholeTarget where
  | int32
  | int64
  | uint32
  | uint64
  deriving DecidableEq

namespace WholeTarget

def least : WholeTarget → Int
  | int32 => Int32.minValue.toInt
  | int64 => Int64.minValue.toInt
  | uint32 => 0
  | uint64 => 0

def greatest : WholeTarget → Int
  | int32 => Int32.maxValue.toInt
  | int64 => Int64.maxValue.toInt
  | uint32 => UInt32.size - 1
  | uint64 => UInt64.size - 1

def Value (t : WholeTarget) : Type := { k : Int // t.least ≤ k ∧ k ≤ t.greatest }

def hold? (t : WholeTarget) (k : Int) : Option t.Value :=
  if fits : t.least ≤ k ∧ k ≤ t.greatest then some ⟨k, fits⟩ else none

end WholeTarget

inductive Target where
  | whole (t : WholeTarget)
  | single
  | double
  | number
  deriving DecidableEq

namespace Target

def label : Target → String
  | whole .int32 => "i32"
  | whole .int64 => "i64"
  | whole .uint32 => "u32"
  | whole .uint64 => "u64"
  | single => "f32"
  | double => "f64"
  | number => "number"

def Value : Target → Type
  | whole t => t.Value
  | single => Float32
  | double => Float
  | number => Number

def chars : (t : Target) → t.Value → List Char
  | whole _, k => Decimal.wholeText k.val
  | single, x => Decimal.singleText x
  | double, x => Decimal.doubleText x
  | number, n => n.chars

def text (t : Target) (value : t.Value) : String := .ofList (t.chars value)

end Target

end ShuntingYard
