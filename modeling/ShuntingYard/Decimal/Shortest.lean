namespace ShuntingYard.Decimal
open Float.Model

-- The reals that are read as one positive binary value: from `low` to `high` around `centre`,
-- all three counted in units of `1 / unit`. The ends belong to it when the mantissa is even.
structure Neighbourhood where
  low : Nat
  centre : Nat
  high : Nat
  unit : Nat
  closed : Bool

-- The neighbourhood of `mantissa · 2 ^ exponent` among values of `precision` bits. Below a power
-- of two the next value is only half as far away.
def Neighbourhood.around (precision mantissa : Nat) (exponent : Int) : Neighbourhood :=
  let below := if mantissa = Nat.pow 2 (precision - 1) then 1 else 2
  let scale := Nat.pow 2 (exponent - 2).toNat
  { low := (4 * mantissa - below) * scale
    centre := 4 * mantissa * scale
    high := (4 * mantissa + 2) * scale
    unit := Nat.pow 2 (2 - exponent).toNat
    closed := mantissa % 2 == 0 }

-- The multiple of `10 ^ place` that lies in the neighbourhood and is nearest to its centre, as a
-- multiplier. Only the two multiples beside the centre can qualify; an exact tie goes up.
def Neighbourhood.onGrid? (around : Neighbourhood) (place : Int) : Option Nat :=
  let step := around.unit * Nat.pow 10 place.toNat
  let fine := Nat.pow 10 (-place).toNat
  let centre := around.centre * fine
  let below := centre / step
  let holds (multiple : Nat) : Bool :=
    let value := multiple * step
    if around.closed then around.low * fine ≤ value && value ≤ around.high * fine
    else around.low * fine < value && value < around.high * fine
  match holds below, holds (below + 1) with
  | true, true => some (if 2 * (centre - below * step) < step then below else below + 1)
  | true, false => some below
  | false, true => some (below + 1)
  | false, false => none

def Neighbourhood.leadingPlace (around : Neighbourhood) : Int :=
  if around.unit ≤ around.centre then
    (Nat.toDigits 10 (around.centre / around.unit)).length - 1
  else
    -((Nat.toDigits 10 (around.unit / around.centre)).length : Int)

-- Grids from coarse to fine. The first is one place above the leading digit, where a value just
-- under a power of ten may find that power; seventeen digits always find a binary64 value.
def shortest (precision mantissa : Nat) (exponent : Int) : Nat × Int :=
  let around := Neighbourhood.around precision mantissa exponent
  let top := around.leadingPlace + 1
  ((List.range 18).findSome? fun (finer : Nat) =>
    (around.onGrid? (top - finer)).map fun digits => (digits, top - finer)).getD (0, 0)

def positional (digits : Nat) : Int → List Char
  | .ofNat zeros => Nat.toDigits 10 digits ++ List.replicate zeros '0'
  | .negSucc more =>
    let places := more + 1
    let written := Nat.toDigits 10 digits
    if places < written.length then
      written.take (written.length - places) ++ '.' :: written.drop (written.length - places)
    else
      '0' :: '.' :: List.replicate (places - written.length) '0' ++ written

-- The text of a binary value: the fewest digits that read back as it, of these the nearest.
def binaryText (precision : Nat) : UnpackedFloat → List Char
  | .notANumber => ['N', 'a', 'N']
  | .infinity .positive => ['i', 'n', 'f']
  | .infinity .negative => ['-', 'i', 'n', 'f']
  | .zero .positive => ['0']
  | .zero .negative => ['-', '0']
  | .finite sign mantissa exponent _ =>
    let (digits, place) := shortest precision mantissa exponent
    match sign with
    | .positive => positional digits place
    | .negative => '-' :: positional digits place

def doubleText (x : Float) : List Char := binaryText 53 x.toModel.unpack

def singleText (x : Float32) : List Char := binaryText 24 x.toModel.unpack

def wholeText : Int → List Char
  | .ofNat n => Nat.toDigits 10 n
  | .negSucc n => '-' :: Nat.toDigits 10 (n + 1)

end ShuntingYard.Decimal
