import Mathlib.Data.Nat.Factorial.Basic
import ShuntingYard.Arithmetic

namespace ShuntingYard

namespace Binary

def Fits (k : Int) : Prop := Int64.minValue.toInt ≤ k ∧ k ≤ Int64.maxValue.toInt

instance (k : Int) : Decidable (Fits k) := inferInstanceAs (Decidable (_ ∧ _))

theorem fits_toInt (n : Int64) : Fits n.toInt :=
  ⟨n.minValue_le_toInt, n.toInt_le⟩

theorem toInt_ofInt (fits : Fits k) : (Int64.ofInt k).toInt = k :=
  Int64.toInt_ofInt_of_le fits.1 (Int.lt_add_one_of_le fits.2)

theorem word?_fits (fits : Fits k) : word? k = some (.ofInt k) := if_pos fits

theorem word?_misfit (misfit : ¬ Fits k) : word? k = none := if_neg misfit

theorem word?_toInt (n : Int64) : word? n.toInt = some n := by
  rw [word?_fits (fits_toInt n), Int64.ofInt_toInt]

end Binary

namespace Arithmetic
open Binary

theorem exactly_fits (c : Char) (fits : Fits k) : exactly c k = .ok (.integer (.ofInt k)) := by
  simp only [exactly, word?_fits fits]

theorem exactly_misfit (c : Char) (misfit : ¬ Fits k) : exactly c k = .error (.overflow c) := by
  simp only [exactly, word?_misfit misfit]

theorem risingProduct_succ (count factor : Nat) (product : Int64) :
    risingProduct (count + 1) factor product =
      (word? (product.toInt * factor)).bind (risingProduct count (factor + 1)) := rfl

-- Once a product is beyond the words, no later factor brings it back, so that it can be given up.
theorem risingProduct_eq (count factor : Nat) (product : Int64) (positive : 0 < product.toInt) :
    risingProduct count (factor + 1) product =
      word? (product.toInt * (factor + 1).ascFactorial count) := by
  induction count generalizing factor product with
  | zero =>
    rw [Nat.ascFactorial_zero, Int.natCast_one, Int.mul_one]
    exact (word?_toInt product).symm
  | succ count ih =>
    have split : product.toInt * (factor + 1).ascFactorial (count + 1) =
        product.toInt * (factor + 1 : Nat) * (factor + 1 + 1).ascFactorial count := by
      rw [Nat.ascFactorial_succ, ← Nat.succ_ascFactorial, Int.natCast_mul, Int.mul_assoc]
    have grown : 0 < product.toInt * (factor + 1 : Nat) := Int.mul_pos positive (by omega)
    rw [split, risingProduct_succ]
    by_cases fits : Fits (product.toInt * (factor + 1 : Nat))
    · have next := toInt_ofInt fits
      rw [word?_fits fits, Option.bind_some, ih _ _ (next.symm ▸ grown), next]
    · have negative : Int64.minValue.toInt < 0 := by decide
      have beyond : Int64.maxValue.toInt < product.toInt * (factor + 1 : Nat) := by
        unfold Fits at fits
        omega
      have later : (1 : Int) ≤ (factor + 1 + 1).ascFactorial count :=
        Int.ofNat_le.mpr (Nat.ascFactorial_pos _ _)
      have more := Int.mul_le_mul_of_nonneg_left later (Int.le_of_lt grown)
      rw [word?_misfit fits, Option.bind_none, word?_misfit]
      unfold Fits
      omega

theorem wordFactorial_eq (n : Int64) : wordFactorial n = exactly '!' n.toInt.toNat.factorial := by
  unfold wordFactorial exactly
  rw [risingProduct_eq _ 0 1 (by decide), Nat.one_ascFactorial]
  simp only [Int64.toInt_one, Int.one_mul]

end Arithmetic
end ShuntingYard
