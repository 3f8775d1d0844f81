import ShuntingYard.Proofs.Arithmetic.Words

-- Powers of integers that are found on floats.
namespace ShuntingYard

namespace Binary

theorem abs_word_le (n : Int64) : |(n.toInt : ℚ)| ≤ 2 ^ 64 := by
  have range := Arithmetic.fits_iff.mp (fits_toInt n)
  exact_mod_cast abs_le.mpr ⟨by omega, by omega⟩

theorem word_value (n : Int64) : ∃ a : ℤ, value? (ofWhole n.toInt) = some (a : ℚ) ∧
    (a = n.toInt ∨ 2 ^ 53 ≤ a ∧ 2 ^ 53 ≤ n.toInt ∨ a ≤ -2 ^ 53 ∧ n.toInt ≤ -2 ^ 53) := by
  have nearest := ofWhole_nearest n.toInt
  obtain ⟨q, value⟩ := nearest.exists_value (abs_word_le n)
  obtain ⟨a, rfl⟩ := ofWhole_whole value
  refine ⟨a, value, ?_⟩
  rcases lt_or_ge |n.toInt| (2 ^ 53) with small | large
  · rw [ofWhole_small small] at value
    exact .inl (Int.cast_injective (Option.some_inj.mp value)).symm
  · rcases le_abs.mp large with great | least
    · have coarse := ofWhole_two_pow 53 (by norm_num)
      have above := nearest.ge value coarse (Int.cast_le.mpr great)
      exact .inr (.inl ⟨Int.cast_le.mp above, great⟩)
    · have least : n.toInt ≤ -2 ^ 53 := by omega
      have coarse := ofWhole_neg_two_pow 53 (by norm_num)
      have below := nearest.le value coarse (Int.cast_le.mpr least)
      exact .inr (.inr ⟨Int.cast_le.mp below, least⟩)

theorem greatest_words {n : Int64} (great : 2 ^ 63 - 512 ≤ n.toInt) :
    value? (ofWhole n.toInt) = some ((2 ^ 63 : ℤ) : ℚ) := by
  have range := Arithmetic.fits_iff.mp (fits_toInt n)
  obtain zero | ⟨sign, m, positive, same, magnitude⟩ := ofWhole_cases n.toInt
  · omega
  cases sign with
  | negative =>
    simp only [Float.Model.UnpackedFloat.Sign.apply] at same
    omega
  | positive =>
    simp only [Float.Model.UnpackedFloat.Sign.apply] at same
    have width : m.log2 = 62 := (Nat.log2_eq_iff positive.ne').mpr ⟨by omega, by omega⟩
    have scale : (2 : ℚ) ^ (52 - m.log2 : ℤ) = 1 / 1024 := by
      rw [width]
      norm_num
    have least : (2 ^ 63 - 512 : ℚ) ≤ m := by exact_mod_cast (by omega : 2 ^ 63 - 512 ≤ (m : ℤ))
    have less : (m : ℚ) < 2 ^ 63 := by exact_mod_cast (by omega : m < 2 ^ 63)
    -- Half a step below 2 ^ 63 the even neighbour is 2 ^ 63 itself.
    have middle : HalfEven (m * 2 ^ (52 - m.log2 : ℤ)) (2 ^ 53) := by
      rw [scale]
      refine ⟨?_, fun _ => by decide⟩
      push_cast
      rw [abs_le]
      constructor <;> linarith
    obtain ⟨k, nearest, value | ⟨-, beyond⟩⟩ := ofMagnitude_value .positive positive
    · have whole : (k : ℤ) = 2 ^ 53 := nearest.unique middle
      rw [magnitude, value, width, whole]
      norm_num [Float.Model.UnpackedFloat.Sign.apply]
    · linarith [lt_greatestMiddle]

end Binary

namespace Arithmetic
open Binary
variable {pow : Float → Float → Float} {x : Float} {v : ℚ} {p : ℤ} {c : Char}

def HasWord (x : Float) : Prop := ∃ v, value? x = some v ∧ Fits (towardZero v)

theorem hasWord_iff (value : value? x = some v) : HasWord x ↔ Fits (towardZero v) := by
  constructor
  · rintro ⟨w, again, fits⟩
    cases value.symm.trans again
    exact fits
  · exact fun fits => ⟨v, value, fits⟩

theorem checkedWord_ok (word : HasWord x) : ∃ n, checkedWord c (truncated x) = .ok n := by
  obtain ⟨v, value, fits⟩ := word
  rw [checkedWord_whole (truncated_value value), if_pos fits]
  exact ⟨_, rfl⟩

theorem checkedWord_overflow (noWord : ¬ HasWord x) :
    checkedWord c (truncated x) = .error (.overflow c) := by
  cases value : value? x with
  | none =>
    have kept : truncated x = x := wholeBy_none value
    rw [kept, checkedWord_none value]
  | some v => rw [checkedWord_whole (truncated_value value), if_neg (mt (hasWord_iff value).mpr noWord)]

theorem noWord_above (nearest : Nearest p x) (beyond : 2 ^ 63 ≤ p) : ¬ HasWord x := by
  rintro ⟨v, value, fits⟩
  have far := nearest.ge value (ofWhole_two_pow 63 (by norm_num)) (Int.cast_le.mpr beyond)
  exact absurd (towardZero_le far) (not_le.mpr (fits_iff.mp fits).2)

theorem noWord_below (nearest : Nearest p x) (beyond : p < -2 ^ 63 - 1024) : ¬ HasWord x := by
  rintro ⟨v, value, fits⟩
  have beyond : (p : ℚ) ≤ (-2 ^ 63 - 1025 : ℤ) := Int.cast_le.mpr (by omega)
  -- Below the least word the next double is this one; in the middle between them either is near.
  have double : value? (ofWhole (-2 ^ 63 - 2048)) = some ((-2 ^ 63 - 2048 : ℤ) : ℚ) :=
    ofWhole_exact (-2 ^ 52 - 1) 11 (by norm_num) (by norm_num) (by norm_num)
  have far : v ≤ (-2 ^ 63 - 1 : ℤ) := by
    push_cast at beyond ⊢
    rcases nearest.le_mirrored value double with near | near
    all_goals
      push_cast at near
      linarith
  have least := (fits_iff.mp fits).1
  have truncated := le_towardZero far
  omega

theorem rounded_between (nearest : Nearest p x) (least : -2 ^ 63 ≤ p) (greatest : p < 2 ^ 63 - 512) :
    ∃ v, value? x = some v ∧ (-2 ^ 63 : ℤ) ≤ v ∧ v ≤ (2 ^ 63 - 1 : ℤ) := by
  have small : |(p : ℚ)| ≤ 2 ^ 64 := by
    exact_mod_cast abs_le.mpr ⟨by omega, by omega⟩
  obtain ⟨v, value⟩ := nearest.exists_value small
  have first := ofWhole_neg_two_pow 63 (by norm_num)
  refine ⟨v, value, nearest.ge value first (Int.cast_le.mpr least), ?_⟩
  have inside : (p : ℚ) ≤ (2 ^ 63 - 513 : ℤ) := Int.cast_le.mpr (by omega)
  have double : value? (ofWhole (2 ^ 63 - 1024)) = some ((2 ^ 63 - 1024 : ℤ) : ℚ) :=
    ofWhole_exact (2 ^ 53 - 1) 10 (by norm_num) (by norm_num) (by norm_num)
  push_cast at inside ⊢
  rcases nearest.le_mirrored value double with near | near
  all_goals
    push_cast at near
    linarith

theorem hasWord_between (nearest : Nearest p x) (least : -2 ^ 63 ≤ p) (greatest : p < 2 ^ 63 - 512) :
    HasWord x := by
  obtain ⟨v, value, above, below⟩ := rounded_between nearest least greatest
  have notLess := towardZero_le above
  have notMore := le_towardZero below
  exact ⟨v, value, fits_iff.mpr ⟨notLess, by omega⟩⟩

-- The magnitudes at which no rounding leads across an end of the words.
def Clear (p : ℤ) : Prop :=
  p.natAbs < 2 ^ 63 - 512 ∨ p.natAbs = 2 ^ 63 ∨ 2 ^ 63 + 1024 < p.natAbs

theorem hasWord_clear (nearest : Nearest p x) (clear : Clear p) : HasWord x ↔ Fits p := by
  unfold Clear at clear
  rw [fits_iff]
  by_cases fits : -2 ^ 63 ≤ p ∧ p < 2 ^ 63
  · exact iff_of_true (hasWord_between nearest fits.1 (by omega)) fits
  · refine iff_of_false ?_ fits
    rcases lt_or_ge p 0 with negative | nonneg
    · exact noWord_below nearest (by omega)
    · exact noWord_above nearest (by omega)

def root (exponent bound : Nat) : Nat → Nat → Nat
  | 0, found => found
  | bit + 1, found =>
    let next := found + Nat.pow 2 bit
    root exponent bound bit (if Nat.pow next exponent ≤ bound then next else found)

theorem roots_clear : ∀ exponent < 64, 2 ≤ exponent →
    ∃ g ∈ [root exponent (2 ^ 63 + 1024) 32 0], (g - 1) ^ exponent < 2 ^ 63 - 512 ∧
      (g ^ exponent < 2 ^ 63 - 512 ∨ g ^ exponent = 2 ^ 63) ∧
      2 ^ 63 + 1024 < (g + 1) ^ exponent := by
  decide +kernel

theorem clear_power (base : ℤ) {exponent : Nat} (several : 2 ≤ exponent) (few : exponent < 64) :
    Clear (base ^ exponent) := by
  obtain ⟨g, -, less, same, more⟩ := roots_clear exponent few several
  unfold Clear
  rw [Int.natAbs_pow]
  rcases lt_trichotomy base.natAbs g with below | equal | above
  · have smaller := Nat.pow_le_pow_left (Nat.le_sub_one_of_lt below) exponent
    exact .inl (smaller.trans_lt less)
  · rw [equal]
    exact same.imp_right .inl
  · have greater := Nat.pow_le_pow_left (Nat.succ_le_of_lt above) exponent
    exact .inr (.inr (more.trans_le greater))

def Far (base : ℤ) (exponent : Nat) : Prop :=
  2 ≤ base.natAbs ∧ 64 ≤ exponent ∨ 2 ^ 53 ≤ base.natAbs ∧ 2 ≤ exponent

theorem Far.beyond {base : ℤ} {exponent : Nat} (far : Far base exponent) :
    2 ^ 64 ≤ (base ^ exponent).natAbs := by
  rw [Int.natAbs_pow]
  rcases far with ⟨large, many⟩ | ⟨large, several⟩
  · exact (Nat.pow_le_pow_right two_pos many).trans (Nat.pow_le_pow_left large exponent)
  · calc 2 ^ 64 ≤ (2 ^ 53) ^ 2 := by norm_num
      _ ≤ (2 ^ 53) ^ exponent := Nat.pow_le_pow_right (by norm_num) several
      _ ≤ base.natAbs ^ exponent := Nat.pow_le_pow_left large exponent

theorem natAbs_power_le {base : ℤ} (small : base.natAbs ≤ 1) (exponent : Nat) :
    (base ^ exponent).natAbs ≤ 1 := by
  rw [Int.natAbs_pow]
  exact pow_le_one₀ (Nat.zero_le _) small

-- What is relied on: a power of whole doubles is a double nearest to the exact power.
def RaisesWhole (pow : Float → Float → Float) : Prop :=
  ∀ x y (base : ℤ) (exponent : Nat), value? x = some (base : ℚ) → value? y = some (exponent : ℚ) →
    Nearest ((base ^ exponent : ℤ) : ℚ) (pow x y)

theorem exponent_value {r : Int64} (natural : 0 ≤ r.toInt) : ∃ b : Nat,
    value? (ofWhole r.toInt) = some (b : ℚ) ∧ (b = r.toInt.toNat ∨ 2 ^ 53 ≤ b ∧ 2 ^ 53 ≤ r.toInt) := by
  obtain ⟨a, value, which⟩ := word_value r
  obtain ⟨b, rfl⟩ := Int.eq_ofNat_of_zero_le (show 0 ≤ a by omega)
  exact ⟨b, value, by omega⟩

section
variable {l r : Int64} (raises : RaisesWhole pow)
include raises

-- Base and exponent may have been rounded before, but then the power is far beyond the words, or
-- the base is so small that the exponent does not count.
theorem hasWord_several (several : 2 ≤ r.toInt) :
    HasWord (pow (ofWhole l.toInt) (ofWhole r.toInt)) ↔ Fits (l.toInt ^ r.toInt.toNat) := by
  obtain ⟨a, base, baseRounded⟩ := word_value l
  obtain ⟨b, exponent, exponentRounded⟩ := exponent_value (show 0 ≤ r.toInt by omega)
  have nearest := raises _ _ a b base exponent
  by_cases far : Far l.toInt r.toInt.toNat
  · have roundedFar : Far a b := by
      unfold Far at far ⊢
      omega
    have beyond := far.beyond
    have roundedBeyond := roundedFar.beyond
    rw [hasWord_clear nearest (.inr (.inr (by omega))), fits_iff, fits_iff]
    omega
  · unfold Far at far
    obtain rfl : a = l.toInt := by omega
    by_cases small : l.toInt.natAbs ≤ 1
    · have within := natAbs_power_le small r.toInt.toNat
      have roundedWithin := natAbs_power_le small b
      refine iff_of_true (hasWord_between nearest (by omega) (by omega)) ?_
      rw [fits_iff]
      omega
    · obtain rfl : b = r.toInt.toNat := by omega
      exact hasWord_clear nearest (clear_power l.toInt (by omega) (by omega))

theorem hasWord_one (one : r.toInt = 1) :
    HasWord (pow (ofWhole l.toInt) (ofWhole r.toInt)) ↔ l.toInt < 2 ^ 63 - 512 := by
  have exponent : value? (ofWhole r.toInt) = some ((1 : Nat) : ℚ) := by
    rw [one]
    exact ofWhole_small (by decide)
  rcases lt_or_ge l.toInt (2 ^ 63 - 512) with less | great
  · refine iff_of_true ?_ less
    have least := (fits_iff.mp (fits_toInt l)).1
    obtain ⟨q, base, above, below⟩ := rounded_between (ofWhole_nearest l.toInt) least less
    obtain ⟨a, rfl⟩ := ofWhole_whole base
    have above := Int.cast_le.mp above
    have below := Int.cast_le.mp below
    have nearest := raises _ _ _ _ base exponent
    rw [pow_one] at nearest
    obtain ⟨v, value⟩ := nearest.exists_value (by exact_mod_cast abs_le.mpr ⟨by omega, by omega⟩)
    -- The base is a double already, so nothing else is nearest to it.
    obtain rfl : v = a := le_antisymm (nearest.le value base le_rfl) (nearest.ge value base le_rfl)
    rw [hasWord_iff value, towardZero_intCast, fits_iff]
    omega
  · have nearest := raises _ _ _ _ (greatest_words great) exponent
    exact iff_of_false (noWord_above nearest (by norm_num)) (not_lt.mpr great)

theorem hasWord_none (none : r.toInt = 0) : HasWord (pow (ofWhole l.toInt) (ofWhole r.toInt)) := by
  have exponent : value? (ofWhole r.toInt) = some ((0 : Nat) : ℚ) := by
    rw [none]
    exact ofWhole_small (by decide)
  obtain ⟨a, base, -⟩ := word_value l
  have nearest := raises _ _ _ _ base exponent
  rw [pow_zero] at nearest
  exact hasWord_between nearest (by norm_num) (by norm_num)

theorem hasWord_power (natural : 0 ≤ r.toInt) : HasWord (pow (ofWhole l.toInt) (ofWhole r.toInt)) ↔
    Fits (l.toInt ^ r.toInt.toNat) ∧ ¬ (r = 1 ∧ 2 ^ 63 - 512 ≤ l.toInt) := by
  have first : r = 1 ↔ r.toInt = 1 := Int64.toInt_inj.symm
  rw [first]
  rcases (show r.toInt = 0 ∨ r.toInt = 1 ∨ 2 ≤ r.toInt by omega) with none | one | several
  · refine iff_of_true (hasWord_none raises none) ⟨?_, by omega⟩
    rw [none, Int.toNat_zero, pow_zero, fits_iff]
    omega
  · have fits : Fits (l.toInt ^ r.toInt.toNat) := by
      rw [one, Int.toNat_one, pow_one]
      exact fits_toInt l
    rw [hasWord_one raises one, and_iff_right fits]
    omega
  · rw [hasWord_several raises several, and_iff_left]
    omega

end

def raiseWhole (x y : Float) : Float :=
  match value? x, value? y with
  | some base, some exponent => ofWhole (base.num ^ exponent.num.toNat)
  | _, _ => x

theorem raiseWhole_raises : RaisesWhole raiseWhole := by
  intro x y base exponent left right
  unfold raiseWhole
  rw [left, right]
  exact ofWhole_nearest _

end Arithmetic

namespace Provider
open Arithmetic Binary

def caret : Operator := ⟨'^', .right, 3, 2⟩

theorem operate_power (pow : Float → Float → Float) (l r : Int64) :
    (arithmeticWith pow).operate caret [.operand (.integer l), .operand (.integer r)] =
      (checkedWord '^' (truncated (pow (ofWhole l.toInt) (ofWhole r.toInt)))).map .integer := rfl

-- Powers overflow when the exact power fits no word. To the first power the greatest words, which
-- are no floats, do so as well, because they are rounded up to 2 ^ 63 beforehand.
theorem power_overflow (raises : RaisesWhole pow) (l : Int64) {r : Int64} (natural : 0 ≤ r.toInt) :
    ((arithmeticWith pow).operate caret [.operand (.integer l), .operand (.integer r)] =
        .error (.overflow '^') ↔
      ¬ Fits (l.toInt ^ r.toInt.toNat) ∨ r = 1 ∧ 2 ^ 63 - 512 ≤ l.toInt) ∧
    ((∃ n, (arithmeticWith pow).operate caret [.operand (.integer l), .operand (.integer r)] =
        .ok (.integer n)) ↔
      Fits (l.toInt ^ r.toInt.toNat) ∧ ¬ (r = 1 ∧ 2 ^ 63 - 512 ≤ l.toInt)) := by
  have outside : ¬ Fits (l.toInt ^ r.toInt.toNat) ∨ r = 1 ∧ 2 ^ 63 - 512 ≤ l.toInt ↔
      ¬ HasWord (pow (ofWhole l.toInt) (ofWhole r.toInt)) := by
    rw [hasWord_power raises natural, not_and_or, not_not]
  rw [operate_power, outside, ← hasWord_power raises natural]
  by_cases word : HasWord (pow (ofWhole l.toInt) (ofWhole r.toInt))
  · obtain ⟨n, result⟩ := checkedWord_ok word (c := '^')
    rw [result]
    exact ⟨⟨nofun, fun noWord => (noWord word).elim⟩, fun _ => word, fun _ => ⟨n, rfl⟩⟩
  · rw [checkedWord_overflow word]
    exact ⟨⟨fun _ => word, fun _ => rfl⟩, nofun, fun other => (word other).elim⟩

theorem power_overflow_greatest :
    RaisesWhole raiseWhole ∧ 0 ≤ (1 : Int64).toInt ∧
      (arithmeticWith raiseWhole).operate caret
        [.operand (.integer Int64.maxValue), .operand (.integer 1)] = .error (.overflow '^') :=
  ⟨raiseWhole_raises, by decide,
    (power_overflow raiseWhole_raises Int64.maxValue (by decide)).1.mpr (.inr ⟨rfl, by decide⟩)⟩

theorem first_power_inexact :
    RaisesWhole raiseWhole ∧
      ¬ ((arithmeticWith raiseWhole).operate caret
          [.operand (.integer Int64.maxValue), .operand (.integer 1)] = .error (.overflow '^') ↔
        ¬ Fits (Int64.maxValue.toInt ^ (1 : Int64).toInt.toNat)) := by
  have noWord : ¬ HasWord (raiseWhole (ofWhole Int64.maxValue.toInt) (ofWhole (1 : Int64).toInt)) :=
    mt (hasWord_one raiseWhole_raises rfl).mp (by decide)
  refine ⟨raiseWhole_raises, fun exact => exact.mp ?_ ?_⟩
  · rw [operate_power, checkedWord_overflow noWord]
    rfl
  · exact fits_toInt Int64.maxValue

end Provider
end ShuntingYard
