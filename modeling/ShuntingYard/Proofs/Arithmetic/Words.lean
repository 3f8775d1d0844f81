import ShuntingYard.Proofs.Arithmetic.Faults
import ShuntingYard.Proofs.Conversion
import ShuntingYard.Proofs.Expression.Whole

-- Which results are kept as 64-bit words.
namespace ShuntingYard
namespace Arithmetic
open Binary

variable {m n : Int64} {x : Float} {k : Int} {c : Char}

theorem exactly_ok {number : Number} :
    exactly c k = .ok number ↔ ∃ i : Int64, number = .integer i ∧ i.toInt = k := by
  by_cases fits : Fits k
  · rw [exactly_fits c fits]
    constructor
    · rintro ⟨⟩
      exact ⟨_, rfl, toInt_ofInt fits⟩
    · rintro ⟨i, rfl, rfl⟩
      rw [Int64.ofInt_toInt]
  · rw [exactly_misfit c fits]
    constructor
    · nofun
    · rintro ⟨i, -, rfl⟩
      exact (fits (fits_toInt i)).elim

theorem exactly_overflow : exactly c k = .error (.overflow c) ↔ ¬ Fits k := by
  by_cases fits : Fits k
  · rw [exactly_fits c fits]
    exact ⟨nofun, fun misfit => (misfit fits).elim⟩
  · rw [exactly_misfit c fits]
    exact ⟨fun _ => fits, fun _ => rfl⟩

theorem fits_iff : Fits k ↔ -2 ^ 63 ≤ k ∧ k < 2 ^ 63 := by
  unfold Fits
  rw [Int64.toInt_minValue, Int64.toInt_maxValue, Int.le_sub_one_iff]

theorem ofWhole_greatest : value? (ofWhole Int64.maxValue.toInt) = some ((2 ^ 63 : ℤ) : ℚ) := by
  refine (rfl : _ = some (((2 ^ 52 : ℤ) : ℚ) * 2 ^ (11 : ℤ))).trans (congrArg some ?_)
  norm_num

theorem checkedWord_whole (value : value? x = some (k : ℚ)) :
    checkedWord c x = if Fits k then .ok (.ofInt k) else .error (.overflow c) := by
  have within : (x.isFinite ∧ ofWhole Int64.minValue.toInt ≤ x ∧
      x < ofWhole Int64.maxValue.toInt) ↔ Fits k := by
    have least : value? (ofWhole Int64.minValue.toInt) = _ := WholeTarget.ofWhole_least .int64
    rw [isFinite_iff, le_iff least value, lt_iff value ofWhole_greatest, Int.cast_le, Int.cast_lt,
      and_iff_right ⟨_, value⟩, fits_iff, WholeTarget.least, Int64.toInt_minValue]
  unfold checkedWord
  by_cases fits : Fits k
  · rw [if_pos (within.mpr fits), if_pos fits, clampedWord, clamp_whole value fits.1 fits.2]
  · rw [if_neg (mt within.mp fits), if_neg fits]

theorem checkedWord_none (none : value? x = none) : checkedWord c x = .error (.overflow c) := by
  refine if_neg ?_
  rintro ⟨finite, -⟩
  obtain ⟨q, value⟩ := isFinite_iff.mp finite
  cases none.symm.trans value

theorem quotient_fits (m : Int64) (divides : n ≠ 0) :
    Fits (m.toInt.tdiv n.toInt) ↔ ¬ (m = Int64.minValue ∧ n = -1) := by
  have range := fits_iff.mp (fits_toInt m)
  have nonzero : n.toInt ≠ 0 := fun zero => divides (Int64.toInt_inj.mp zero)
  have least : m = Int64.minValue ↔ m.toInt = -2 ^ 63 := Int64.toInt_inj.symm
  have opposite : n = -1 ↔ n.toInt = -1 := Int64.toInt_inj.symm
  rw [fits_iff, least, opposite]
  rcases (show n.toInt = 1 ∨ n.toInt = -1 ∨ 2 ≤ n.toInt.natAbs by omega) with one | minus | more
  · rw [one, Int.tdiv_one]
    omega
  · rw [minus, Int.tdiv_neg, Int.tdiv_one]
    omega
  -- Every other divisor at least halves the magnitude.
  · have magnitude : (m.toInt.tdiv n.toInt).natAbs ≤ m.toInt.natAbs / 2 := by
      rw [Int.natAbs_tdiv]
      exact Nat.div_le_div_left more two_pos
    omega

theorem natAbs_remainder_le (k l : Int) : (k.tmod l).natAbs ≤ k.natAbs := by
  rw [Int.natAbs_tmod]
  exact Nat.mod_le _ _

theorem remainder_fits (m n : Int64) : Fits (m.toInt.tmod n.toInt) := by
  have range := fits_iff.mp (fits_toInt m)
  have magnitude := natAbs_remainder_le m.toInt n.toInt
  rw [fits_iff]
  rcases Int.le_total 0 m.toInt with nonneg | nonpos
  · have sign := Int.tmod_nonneg n.toInt nonneg
    omega
  · have sign := Int.tmod_nonneg n.toInt (Int.neg_nonneg_of_nonpos nonpos)
    rw [Int.neg_tmod] at sign
    omega

theorem wordRemainder_eq (m n : Int64) : wordRemainder m n =
    if n = 0 then .error (.divideByZero '%')
    else if m = Int64.minValue ∧ n = -1 then .error (.overflow '%')
    else exactly '%' (m.toInt.tmod n.toInt) := by
  unfold wordRemainder
  split
  · rfl
  · rename_i divides
    by_cases fits : Fits (m.toInt.tdiv n.toInt)
    · rw [word?_fits fits, if_neg ((quotient_fits m divides).mp fits)]
    · rw [word?_misfit fits, if_pos (not_not.mp (mt (quotient_fits m divides).mpr fits))]

end Arithmetic
open Arithmetic Binary

inductive Calculation where
  | plain (how : Operation)
  | remainder

namespace Calculation
variable {m n : Int64}

def operator : Calculation → Operator
  | plain how => how.operator
  | remainder => ⟨'%', .left, 2, 2⟩

def on : Calculation → Int → Int → Int
  | plain how => how.on
  | remainder => Int.tmod

def operate (how : Calculation) (m n : Int64) : Except OperateError Number :=
  Provider.arithmetic.operate how.operator [.operand (.integer m), .operand (.integer n)]

-- The one division of words whose quotient is no word. The remainder, zero, is lost with it.
def Breaks (how : Calculation) (m n : Int64) : Prop :=
  how = .remainder ∧ m = Int64.minValue ∧ n = -1

theorem operate_plain (how : Operation) (m n : Int64) :
    (plain how).operate m n = exactly how.operator.symbol (how.on m.toInt n.toInt) :=
  operate_binary how m n

theorem operate_remainder (m n : Int64) : remainder.operate m n = wordRemainder m n := rfl

-- The results are exact. No remainder overflows by itself, but one is given up.
structure Exact (how : Calculation) (m n : Int64) : Prop where
  ok (number : Number) : how.operate m n = .ok number ↔
    (∃ i : Int64, number = .integer i ∧ i.toInt = how.on m.toInt n.toInt) ∧
      ¬ (how = .remainder ∧ n = 0) ∧ ¬ how.Breaks m n
  overflow : how.operate m n = .error (.overflow how.operator.symbol) ↔
    ¬ Fits (how.on m.toInt n.toInt) ∨ how.Breaks m n
  divideByZero : how.operate m n = .error (.divideByZero how.operator.symbol) ↔
    how = .remainder ∧ n = 0
  magnitude (i : Int64) : how = .remainder → how.operate m n = .ok (.integer i) →
    i.toInt.natAbs ≤ m.toInt.natAbs

theorem plain_exact (how : Operation) (m n : Int64) : (plain how).Exact m n := by
  have other : plain how ≠ .remainder := nofun
  have nonzero : ¬ (plain how = .remainder ∧ n = 0) := fun zero => other zero.1
  have whole : ¬ (plain how).Breaks m n := fun breaks => other breaks.1
  constructor
  case ok =>
    intro number
    rw [operate_plain, exactly_ok]
    exact (and_iff_left ⟨nonzero, whole⟩).symm
  case overflow =>
    rw [operate_plain]
    exact exactly_overflow.trans (or_iff_left whole).symm
  case divideByZero =>
    rw [operate_plain]
    exact ⟨fun failed => (nomatch exactly_error failed), fun zero => (nonzero zero).elim⟩
  case magnitude => exact fun _ same => (other same).elim

theorem remainder_ok {number : Number} : remainder.operate m n = .ok number ↔
    (∃ i : Int64, number = .integer i ∧ i.toInt = m.toInt.tmod n.toInt) ∧ n ≠ 0 ∧
      ¬ (m = Int64.minValue ∧ n = -1) := by
  rw [operate_remainder, wordRemainder_eq]
  split
  · rename_i zero
    exact ⟨nofun, fun regular => (regular.2.1 zero).elim⟩
  · rename_i nonzero
    split
    · rename_i least
      exact ⟨nofun, fun regular => (regular.2.2 least).elim⟩
    · rename_i regular
      exact exactly_ok.trans (and_iff_left ⟨nonzero, regular⟩).symm

theorem remainder_error {cause : OperateError} : remainder.operate m n = .error cause ↔
    n = 0 ∧ cause = .divideByZero '%' ∨
      (m = Int64.minValue ∧ n = -1) ∧ cause = .overflow '%' := by
  rw [operate_remainder, wordRemainder_eq, exactly_fits _ (remainder_fits m n)]
  split
  · rename_i zero
    constructor
    · rintro ⟨⟩
      exact .inl ⟨zero, rfl⟩
    · rintro (⟨-, rfl⟩ | ⟨⟨-, rfl⟩, -⟩)
      · rfl
      · cases zero
  · rename_i nonzero
    split
    · rename_i least
      constructor
      · rintro ⟨⟩
        exact .inr ⟨least, rfl⟩
      · rintro (⟨zero, -⟩ | ⟨-, rfl⟩)
        · exact (nonzero zero).elim
        · rfl
    · rename_i regular
      constructor
      · nofun
      · rintro (⟨zero, -⟩ | ⟨least, -⟩)
        · exact (nonzero zero).elim
        · exact (regular least).elim

theorem remainder_exact (m n : Int64) : remainder.Exact m n := by
  constructor
  case ok =>
    intro number
    rw [remainder_ok]
    simp only [Breaks, true_and, on, ne_eq]
  case overflow =>
    have fits : Fits (remainder.on m.toInt n.toInt) := remainder_fits m n
    rw [remainder_error]
    simp [Breaks, fits, operator]
  case divideByZero =>
    rw [remainder_error]
    simp [operator]
  case magnitude =>
    intro i _ result
    obtain ⟨⟨j, same, value⟩, -⟩ := remainder_ok.mp result
    cases same
    rw [value]
    exact natAbs_remainder_le m.toInt n.toInt

theorem operate_exact (how : Calculation) (m n : Int64) : how.Exact m n := by
  cases how with
  | plain how => exact plain_exact how m n
  | remainder => exact remainder_exact m n

end Calculation
end ShuntingYard
