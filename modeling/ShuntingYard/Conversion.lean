import ShuntingYard.Error

namespace ShuntingYard

def WholeTarget.clamp (t : WholeTarget) (x : Float) : t.Value :=
  ⟨Binary.clamp t.least t.greatest x, Int.le_max_left _ _, by
    have ordered : t.least ≤ t.greatest := by cases t <;> decide
    unfold Binary.clamp
    omega⟩

-- The number as a whole number of the target: a float goes to the nearest one, halves to even. The
-- ends of the range are compared as floats; above the greatest value there has to be room for one
-- more, because that value itself may not be a float.
def WholeTarget.ofNumber? (t : WholeTarget) : Number → Option t.Value
  | .integer n => t.hold? n.toInt
  | .float x =>
    let whole := Binary.nearestEven x
    if whole.isFinite ∧ Binary.ofWhole t.least ≤ whole ∧ whole < Binary.ofWhole t.greatest + 1 then
      some (t.clamp whole)
    else none

-- Floats and numbers take every value; a 32-bit float takes the nearest. The error names the
-- number as it was, before any rounding.
def Number.convert (n : Number) : (t : Target) → Except Error t.Value
  | .whole t =>
    match t.ofNumber? n with
    | some value => .ok value
    | none => .error (.conversion n (.whole t))
  | .single => .ok (Binary.single n.toFloat)
  | .double => .ok n.toFloat
  | .number => .ok n

end ShuntingYard
