namespace ShuntingYard.Binary
open Float.Model

-- A finite double is `±mantissa · 2 ^ exponent`. The whole number next to it is found on the
-- magnitude and signed afterwards, so both rules below treat the two signs alike.

def magnitudeFloor (mantissa : Nat) : Int → Nat
  | .ofNat shift => mantissa * Nat.pow 2 shift
  | .negSucc shift => mantissa / Nat.pow 2 (shift + 1)

-- The whole number nearest to `mantissa · 2 ^ exponent`; a half goes to the even neighbour.
def magnitudeNearest (mantissa : Nat) : Int → Nat
  | .ofNat shift => mantissa * Nat.pow 2 shift
  | .negSucc shift =>
    let unit := Nat.pow 2 (shift + 1)
    let below := mantissa / unit
    let rest := mantissa % unit
    if 2 * rest < unit then below
    else if unit < 2 * rest then below + 1
    else below + below % 2

def ofMagnitude (sign : UnpackedFloat.Sign) (n : Nat) : Float :=
  .ofModel (.pack (.round .binary64 sign n 0))

-- The whole number that `magnitude` finds for `x`. Only what has places after the point is moved,
-- and what comes to zero keeps its sign.
def wholeBy (magnitude : Nat → Int → Nat) (x : Float) : Float :=
  match x.toModel.unpack with
  | .finite sign mantissa (.negSucc shift) _ =>
    ofMagnitude sign (magnitude mantissa (.negSucc shift))
  | _ => x

def truncated (x : Float) : Float := wholeBy magnitudeFloor x

def nearestEven (x : Float) : Float := wholeBy magnitudeNearest x

def ofWhole (k : Int) : Float := .ofModel (.ofInt k)

-- The value without its fraction, stopped at the ends of a range; NaN counts as zero.
def clamp (least greatest : Int) (x : Float) : Int :=
  max least (min greatest (match x.toModel.unpack with
    | .infinity .positive => greatest
    | .infinity .negative => least
    | .finite sign mantissa exponent _ => sign.apply (magnitudeFloor mantissa exponent)
    | .zero _ => 0
    | .notANumber => 0))

def word? (k : Int) : Option Int64 :=
  if Int64.minValue.toInt ≤ k ∧ k ≤ Int64.maxValue.toInt then some (.ofInt k) else none

def clampedWord (x : Float) : Int64 := .ofInt (clamp Int64.minValue.toInt Int64.maxValue.toInt x)

-- The remainder of `x` by `y` with the sign of `x`. Nothing is rounded: over the smaller of the two
-- exponents both are whole, and their remainder is no longer than the mantissa that stands there.
def remainder (x y : Float) : Float :=
  match x.toModel.unpack, y.toModel.unpack with
  | .finite sign m e _, .finite _ n f _ =>
    let unit := min e f
    let rest := (m * Nat.pow 2 (e - unit).toNat) % (n * Nat.pow 2 (f - unit).toNat)
    .ofModel (.pack (if rest = 0 then .zero sign else .round .binary64 sign rest unit))
  | .zero _, .finite .. => x
  | .zero _, .infinity _ => x
  | .finite .., .infinity _ => x
  | _, _ => .ofModel (.pack .notANumber)

def single (x : Float) : Float32 :=
  .ofModel (.pack (match x.toModel.unpack with
    | .finite sign m e _ => .round .binary32 sign m e
    | special => special))

end ShuntingYard.Binary
