import Mathlib.Algebra.Order.Field.Power
import Mathlib.Algebra.Order.Floor.Semifield
import Mathlib.Algebra.Order.Ring.Abs
import Mathlib.Data.Rat.Floor
import Mathlib.Tactic.FieldSimp
import Mathlib.Tactic.GCongr
import Mathlib.Tactic.Linarith
import Mathlib.Tactic.NormNum
import Mathlib.Tactic.Ring
import ShuntingYard.Binary

-- The whole number next to a rational one.
namespace ShuntingYard.Binary

-- `k` is the whole number nearest to `q`, and the even one of two that are equally near.
structure HalfEven (q : ℚ) (k : ℤ) : Prop where
  near : |q - k| ≤ 1 / 2
  even : |q - k| = 1 / 2 → Even k

namespace HalfEven
variable {q : ℚ} {j k : ℤ}

theorem whole (k : ℤ) : HalfEven k k := by
  constructor <;> norm_num

theorem neg (nearest : HalfEven q k) : HalfEven (-q) (-k : ℤ) := by
  have mirrored : |-q - (-k : ℤ)| = |q - k| := by
    rw [Int.cast_neg, neg_sub_neg, abs_sub_comm]
  exact ⟨mirrored ▸ nearest.near, fun tie => (nearest.even (mirrored ▸ tie)).neg⟩

theorem below (least : (k : ℚ) ≤ q) (less : q < k + 1 / 2) : HalfEven q k := by
  have close : |q - k| < 1 / 2 := by
    rw [abs_of_nonneg (sub_nonneg.mpr least)]
    linarith
  exact ⟨close.le, fun tie => absurd tie close.ne⟩

theorem above (more : k + 1 / 2 < q) (under : q < k + 1) : HalfEven q (k + 1 : ℤ) := by
  have close : |q - (k + 1 : ℤ)| < 1 / 2 := by
    rw [Int.cast_add, Int.cast_one, abs_sub_comm, abs_of_pos (sub_pos.mpr under)]
    linarith
  exact ⟨close.le, fun tie => absurd tie close.ne⟩

theorem middle (half : q = k + 1 / 2) : HalfEven q (k + k % 2 : ℤ) := by
  have distance : |q - (k + k % 2 : ℤ)| = 1 / 2 := by
    rcases Int.emod_two_eq_zero_or_one k with even | odd
    · rw [even, half]
      norm_num
    · rw [odd, half]
      norm_num
  refine ⟨distance.le, fun _ => Int.even_iff.mpr ?_⟩
  omega

theorem spread (q : ℚ) (different : j ≠ k) : 1 ≤ |q - j| + |q - k| := by
  have apart : (1 : ℚ) ≤ |(j : ℚ) - k| := by
    exact_mod_cast Int.one_le_abs (sub_ne_zero.mpr different)
  have around := abs_sub_le (j : ℚ) q k
  rw [abs_sub_comm (j : ℚ) q] at around
  exact apart.trans around

theorem nearest (nearest : HalfEven q k) (j : ℤ) : |q - k| ≤ |q - j| := by
  by_cases same : j = k
  · rw [same]
  · linarith [spread q same, nearest.near]

theorem tie (nearest : HalfEven q k) (different : j ≠ k) (asNear : |q - j| = |q - k|) : Even k :=
  nearest.even (by linarith [spread q different, nearest.near])

theorem unique (left : HalfEven q j) (right : HalfEven q k) : j = k := by
  by_contra different
  have asNear := le_antisymm (left.nearest k) (right.nearest j)
  have near : |j - k| ≤ 1 := by
    have around := abs_sub_le (j : ℚ) q k
    rw [abs_sub_comm (j : ℚ) q] at around
    have : |(j : ℚ) - k| ≤ 1 := by linarith [left.near, right.near]
    exact_mod_cast this
  have one : |j - k| = 1 := le_antisymm near (Int.one_le_abs (sub_ne_zero.mpr different))
  have even := (right.tie different asNear).sub (left.tie (Ne.symm different) asNear.symm)
  rw [← even_abs, abs_sub_comm, one] at even
  exact absurd even (by decide)

theorem ge (nearest : HalfEven q k) (above : (j : ℚ) ≤ q) : j ≤ k := by
  have near := (abs_le.mp nearest.near).2
  have less : (j : ℚ) < k + 1 := by linarith
  exact Int.lt_add_one_iff.mp (by exact_mod_cast less)

theorem le (nearest : HalfEven q k) (below : q ≤ j) : k ≤ j := by
  have near := (abs_le.mp nearest.near).1
  have less : (k : ℚ) < j + 1 := by linarith
  exact Int.lt_add_one_iff.mp (by exact_mod_cast less)

end HalfEven

theorem cast_magnitude (m shift : Nat) :
    (m : ℚ) * 2 ^ Int.negSucc shift = (m : ℚ) / (Nat.pow 2 (shift + 1) : Nat) := by
  rw [zpow_negSucc, Nat.pow_eq, Nat.cast_pow, Nat.cast_ofNat]
  rfl

theorem magnitudeFloor_eq (m : Nat) (e : Int) : magnitudeFloor m e = ⌊(m : ℚ) * 2 ^ e⌋₊ := by
  cases e with
  | ofNat shift =>
    have whole : (m : ℚ) * 2 ^ Int.ofNat shift = (m * Nat.pow 2 shift : Nat) := by
      push_cast [Nat.pow_eq]
      rfl
    rw [whole, Nat.floor_natCast]
    rfl
  | negSucc shift =>
    rw [cast_magnitude, Nat.floor_div_natCast, Nat.floor_natCast]
    rfl

theorem halfEven_quotient (m : Nat) {unit : Nat} (positive : 0 < unit) :
    HalfEven (m / unit) (if 2 * (m % unit) < unit then m / unit
      else if unit < 2 * (m % unit) then m / unit + 1 else m / unit + m / unit % 2 : Nat) := by
  have step : (0 : ℚ) < unit := Nat.cast_pos.mpr positive
  have parts : ((m / unit : Nat) : ℚ) * unit + (m % unit : Nat) = m := by
    exact_mod_cast Nat.div_add_mod' m unit
  have nonneg : (0 : ℚ) ≤ (m % unit : Nat) := Nat.cast_nonneg _
  have short : ((m % unit : Nat) : ℚ) < unit := Nat.cast_lt.mpr (Nat.mod_lt m positive)
  split_ifs with less more
  · have less : 2 * ((m % unit : Nat) : ℚ) < unit := by exact_mod_cast less
    refine .below ?_ ?_
    · rw [le_div_iff₀ step, Int.cast_natCast]
      linarith
    · rw [div_lt_iff₀ step, Int.cast_natCast]
      linarith
  · have more : (unit : ℚ) < 2 * (m % unit : Nat) := by exact_mod_cast more
    rw [Nat.cast_succ]
    refine .above ?_ ?_
    · rw [lt_div_iff₀ step, Int.cast_natCast]
      linarith
    · rw [div_lt_iff₀ step, Int.cast_natCast]
      linarith
  · have half : 2 * ((m % unit : Nat) : ℚ) = unit := by
      exact_mod_cast (by omega : 2 * (m % unit) = unit)
    rw [Nat.cast_add, Int.natCast_mod]
    refine .middle ?_
    rw [div_eq_iff step.ne', Int.cast_natCast]
    linarith

theorem magnitudeNearest_halfEven (m : Nat) (e : Int) :
    HalfEven ((m : ℚ) * 2 ^ e) (magnitudeNearest m e) := by
  cases e with
  | ofNat shift =>
    have whole : (m : ℚ) * 2 ^ Int.ofNat shift = (magnitudeNearest m (.ofNat shift) : ℤ) := by
      simp only [magnitudeNearest]
      push_cast [Nat.pow_eq]
      rfl
    rw [whole]
    exact .whole _
  | negSucc shift =>
    rw [cast_magnitude]
    exact halfEven_quotient m (Nat.two_pow_pos (shift + 1))

end ShuntingYard.Binary
