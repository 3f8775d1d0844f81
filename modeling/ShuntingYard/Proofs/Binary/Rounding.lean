import ShuntingYard.Proofs.Binary.HalfEven
import ShuntingYard.Proofs.Binary.Value

-- How far a double is from the whole number that it stands for.
namespace ShuntingYard.Binary
open Float.Model UnpackedFloat

-- What the bits behind a mantissa tell of the value that it was cut from.
def Represents : ExtendedMantissa → ℚ → Prop
  | ⟨m, false, false⟩, q => q = m
  | ⟨m, false, true⟩, q => m < q ∧ q < m + 1 / 2
  | ⟨m, true, false⟩, q => q = m + 1 / 2
  | ⟨m, true, true⟩, q => m + 1 / 2 < q ∧ q < m + 1

variable {extended : ExtendedMantissa} {q : ℚ} {m : Nat} {e : Int}

theorem Represents.shiftRightOne (cut : Represents extended q) :
    Represents extended.shiftRightOne (q / 2) := by
  obtain ⟨m, round, sticky⟩ := extended
  have parts : (2 : ℚ) * (m / 2 : Nat) + (m % 2 : Nat) = m := by
    exact_mod_cast Nat.div_add_mod m 2
  unfold ExtendedMantissa.shiftRightOne
  rcases Nat.mod_two_eq_zero_or_one m with even | odd
  · rw [even] at parts ⊢
    cases round <;> cases sticky <;> simp only [Represents, ← parts] at cut ⊢ <;> grind
  · rw [odd] at parts ⊢
    cases round <;> cases sticky <;> simp only [Represents, ← parts] at cut ⊢ <;> grind

theorem Represents.halfEven (cut : Represents extended q) :
    HalfEven q extended.roundedMantissa := by
  obtain ⟨m, _ | _, _ | _⟩ := extended
  · cases cut
    exact .whole m
  · exact .below cut.1.le cut.2
  · change HalfEven q (m + m % 2 : Nat)
    rw [Nat.cast_add, Int.natCast_mod]
    exact .middle cut
  · exact .above cut.1 cut.2

theorem represents_shifted (m shift : Nat) :
    Represents (ExtendedMantissa.ofMantissaAndAccuracy m .exact >>> shift) (m / 2 ^ shift) := by
  induction shift with
  | zero =>
    rw [pow_zero, div_one]
    rfl
  | succ shift ih =>
    rw [pow_succ, ← div_div]
    exact ih.shiftRightOne

theorem targetExponent_eq (m : Nat) (e : Int) : Format.binary64.targetExponent (totalExponent m e) =
    max (m.log2 + e - 52) (-1074) := by
  have least : Format.binary64.minExponent = -1074 := rfl
  have width : (Format.binary64.mantissaBits : Int) = 53 := rfl
  rw [Format.targetExponent, totalExponent, least, width]
  omega

theorem shiftToTargetExponent_eq (m : Nat) (e : Int) (shift : Nat)
    (same : (max (m.log2 + e - 52) (-1074) - e).toNat = shift) :
    shiftToTargetExponent .binary64 m e .exact =
      (ExtendedMantissa.ofMantissaAndAccuracy m .exact >>> shift, e + shift) := by
  unfold shiftToTargetExponent shiftToExponent
  rw [targetExponent_eq]
  dsimp only
  rw [same]

theorem log2_full (full : 2 ^ 52 ≤ m) (fits : m < 2 ^ 53) : m.log2 = 52 :=
  (Nat.log2_eq_iff (by omega)).mpr ⟨full, fits⟩

theorem kept (full : 2 ^ 52 ≤ m) (fits : m < 2 ^ 53) (least : -1074 ≤ e) :
    shiftToTargetExponent .binary64 m e .exact = (.ofMantissaAndAccuracy m .exact, e) := by
  have width := log2_full full fits
  rw [shiftToTargetExponent_eq m e 0 (by omega), Nat.cast_zero, add_zero]
  rfl

theorem carried (least : -1074 ≤ e) : shiftToTargetExponent .binary64 (2 ^ 53) e .exact =
    (.ofMantissaAndAccuracy (2 ^ 52) .exact, e + 1) := by
  rw [shiftToTargetExponent_eq (2 ^ 53) e 1 (by rw [Nat.log2_two_pow]; omega)]
  rfl

theorem scaled_full {n : Nat} (positive : 0 < n) :
    2 ^ 52 ≤ (n : ℚ) * 2 ^ (52 - n.log2 : ℤ) ∧ (n : ℚ) * 2 ^ (52 - n.log2 : ℤ) < 2 ^ 53 := by
  have unit : (0 : ℚ) < 2 ^ n.log2 := by positivity
  have least : (2 : ℚ) ^ n.log2 ≤ n := by exact_mod_cast Nat.log2_self_le positive.ne'
  have greatest : (n : ℚ) < 2 ^ (n.log2 + 1) := by exact_mod_cast Nat.lt_log2_self
  rw [zpow_sub₀ two_ne_zero, zpow_natCast, ← mul_div_assoc, le_div_iff₀ unit, div_lt_iff₀ unit]
  rw [pow_succ] at greatest
  constructor
  · rw [mul_comm]
    exact mul_le_mul_of_nonneg_right least (by positivity)
  · norm_num at greatest ⊢
    linarith

theorem log2_shiftLeft {n : Nat} (positive : 0 < n) (shift : Nat) :
    (n <<< shift).log2 = n.log2 + shift := by
  obtain ⟨least, greatest⟩ := (Nat.log2_eq_iff positive.ne').mp rfl
  have unit := Nat.two_pow_pos shift
  rw [Nat.shiftLeft_eq, Nat.log2_eq_iff (Nat.mul_pos positive unit).ne', Nat.pow_add, Nat.add_right_comm,
    Nat.pow_add 2 (n.log2 + 1)]
  exact ⟨Nat.mul_le_mul_right _ least, Nat.mul_lt_mul_of_pos_right greatest unit⟩

theorem shifted_whole {n : Nat} (positive : 0 < n) {left : Nat} (short : 52 - n.log2 = left) :
    ∃ extended, Represents extended (n * 2 ^ (52 - n.log2 : ℤ)) ∧
      shiftToTargetExponent .binary64 (n <<< left) (0 - left) .exact = (extended, (n.log2 - 52 : ℤ)) := by
  have exponent : 0 - (left : ℤ) + (n.log2 - 52 : Nat) = n.log2 - 52 := by omega
  have scaled : ((n <<< left : Nat) : ℚ) / 2 ^ (n.log2 - 52) = n * 2 ^ (52 - n.log2 : ℤ) := by
    rw [Nat.shiftLeft_eq, Nat.cast_mul, Nat.cast_pow, Nat.cast_ofNat, mul_div_assoc, ← zpow_natCast,
      ← zpow_natCast, ← zpow_sub₀ two_ne_zero]
    congr 2
    omega
  refine ⟨_, scaled ▸ represents_shifted (n <<< left) (n.log2 - 52), ?_⟩
  rw [shiftToTargetExponent_eq (n <<< left) (0 - left) (n.log2 - 52)
    (by rw [log2_shiftLeft positive]; omega), exponent]

theorem round_whole (sign : Sign) {n : Nat} (positive : 0 < n) :
    ∃ k : Nat, HalfEven (n * 2 ^ (52 - n.log2 : ℤ)) k ∧
      ((∃ full : 2 ^ 52 ≤ k, k < 2 ^ 53 ∧
        UnpackedFloat.round .binary64 sign n 0 = .finite sign k (n.log2 - 52) (by omega)) ∨
      (k = 2 ^ 53 ∧
        UnpackedFloat.round .binary64 sign n 0 = .finite sign (2 ^ 52) (n.log2 - 51) (by decide))) := by
  have left : (0 - max ((n.log2 : ℤ) + 0 - 52) (-1074)).toNat = 52 - n.log2 := by omega
  obtain ⟨extended, cut, shifted⟩ := shifted_whole positive rfl
  have nearest := cut.halfEven
  have bounds := scaled_full positive
  have full : 2 ^ 52 ≤ extended.roundedMantissa :=
    Int.ofNat_le.mp (nearest.ge (by push_cast; exact bounds.1))
  have fits : extended.roundedMantissa ≤ 2 ^ 53 :=
    Int.ofNat_le.mp (nearest.le (by push_cast; exact bounds.2.le))
  unfold UnpackedFloat.round decreaseExponent roundWithAccuracy
  rw [targetExponent_eq]
  dsimp only
  rw [left, shifted]
  dsimp only
  refine ⟨extended.roundedMantissa, nearest, ?_⟩
  generalize extended.roundedMantissa = k at full fits
  rcases fits.lt_or_eq with fits | rfl
  · refine .inl ⟨full, fits, ?_⟩
    rw [kept full fits (by omega)]
    exact dif_neg (by change ¬ k = 0; omega)
  · refine .inr ⟨rfl, ?_⟩
    rw [carried (by omega)]
    exact (dif_neg (by change ¬ 2 ^ 52 = 0; decide)).trans (finite_congr rfl (by ring))

theorem unpack_beyond (sign : Sign) {m : Nat} {e : Int} (positive : 0 < m) (beyond : 972 ≤ e) :
    (Float.Model.pack (.finite sign m e positive)).unpack = .infinity sign := by
  have biased : (e + Format.binary64.exponentBias + (52 : Nat)).toNat = (e + 1075).toNat := by
    change (e + 1023 + 52).toNat = _
    omega
  change UnpackedFloat.unpack .binary64 (UnpackedFloat.pack .binary64 _) = _
  unfold UnpackedFloat.pack
  dsimp only
  rw [biased, if_pos (by omega)]
  cases sign <;> rfl

-- The middle between the greatest double and the next power of two. From there on no double is near.
def greatestMiddle : ℚ := (2 ^ 54 - 1) * 2 ^ 970

theorem shifted_lt_greatestMiddle {m shift : Nat} (small : m < 2 ^ 53) (few : shift ≤ 970) :
    ((m * 2 ^ shift : Nat) : ℚ) < greatestMiddle := by
  have leading : (m : ℚ) ≤ 2 ^ 53 := by exact_mod_cast small.le
  have unit : (0 : ℚ) < 2 ^ 970 := by positivity
  push_cast
  calc (m : ℚ) * 2 ^ shift ≤ 2 ^ 53 * 2 ^ 970 :=
        mul_le_mul leading (pow_le_pow_right₀ one_le_two few) (by positivity) (by positivity)
    _ < (2 ^ 54 - 1) * 2 ^ 970 := mul_lt_mul_of_pos_right (by norm_num) unit

theorem lt_greatestMiddle : (2 : ℚ) ^ 64 < greatestMiddle := by
  have below := @shifted_lt_greatestMiddle 1 64 (by norm_num) (by norm_num)
  rw [one_mul] at below
  exact_mod_cast below

theorem greatestMiddle_le {n : Nat} (positive : 0 < n) (wide : 1024 ≤ n.log2) :
    greatestMiddle ≤ n := by
  have least {width : Nat} (within : width ≤ n.log2) : 2 ^ width ≤ n :=
    (Nat.pow_le_pow_right two_pos within).trans (Nat.log2_self_le positive.ne')
  have beyond : 2 ^ 54 * 2 ^ 970 ≤ n := by
    rw [← pow_add]
    exact least wide
  calc greatestMiddle ≤ 2 ^ 54 * 2 ^ 970 := by
        unfold greatestMiddle
        gcongr
        norm_num
    _ ≤ n := by exact_mod_cast beyond

theorem greatestMiddle_le_carried {n : Nat} (width : n.log2 = 1023)
    (nearest : HalfEven (n * 2 ^ (52 - n.log2 : ℤ)) (2 ^ 53 : Nat)) : greatestMiddle ≤ n := by
  have unit : (0 : ℚ) < 2 ^ 970 := by positivity
  have scale : (2 : ℚ) ^ (52 - n.log2 : ℤ) = (2 ^ 970 * 2)⁻¹ := by
    rw [width, ← pow_succ]
    exact zpow_neg 2 971
  have near := (abs_le.mp nearest.near).1
  unfold greatestMiddle
  generalize (2 : ℚ) ^ 970 = half at unit scale ⊢
  rw [scale, ← div_eq_mul_inv, neg_le_sub_iff_le_add, ← sub_le_iff_le_add,
    le_div_iff₀ (mul_pos unit two_pos)] at near
  push_cast at near
  linarith

theorem ofMagnitude_value (sign : Sign) {n : Nat} (positive : 0 < n) :
    ∃ k : Nat, HalfEven (n * 2 ^ (52 - n.log2 : ℤ)) k ∧
      (value? (ofMagnitude sign n) = some (((sign.apply k : ℤ) : ℚ) * 2 ^ (n.log2 - 52 : ℤ)) ∨
        (ofMagnitude sign n).toModel.unpack = .infinity sign ∧ greatestMiddle ≤ n) := by
  obtain ⟨k, nearest, ⟨full, fits, rounded⟩ | ⟨rfl, rounded⟩⟩ := round_whole sign positive
  · refine ⟨k, nearest, ?_⟩
    unfold value? ofMagnitude
    dsimp only
    rw [rounded]
    rcases le_or_gt ((n.log2 : ℤ) - 52) 971 with inside | beyond
    · have canonical : Canonical (.finite sign k (n.log2 - 52) (by omega)) :=
        ⟨fits, by omega, inside, .inl full⟩
      exact .inl (congrArg rational? (unpack_pack canonical))
    · exact .inr ⟨unpack_beyond sign _ beyond, greatestMiddle_le positive (by omega)⟩
  · refine ⟨2 ^ 53, nearest, ?_⟩
    unfold value? ofMagnitude
    dsimp only
    rw [rounded]
    rcases le_or_gt ((n.log2 : ℤ) - 51) 971 with inside | beyond
    · have canonical : Canonical (.finite sign (2 ^ 52) (n.log2 - 51) (by decide)) :=
        ⟨by decide, by omega, inside, .inl le_rfl⟩
      refine .inl ((congrArg rational? (unpack_pack canonical)).trans (congrArg some ?_))
      have next : (n.log2 : ℤ) - 51 = n.log2 - 52 + 1 := by ring
      rw [next, zpow_add_one₀ two_ne_zero]
      cases sign <;> simp only [Sign.apply] <;> push_cast <;> ring
    · refine .inr ⟨unpack_beyond sign _ beyond, ?_⟩
      rcases (show 1023 ≤ n.log2 by omega).eq_or_lt with width | wide
      · exact greatestMiddle_le_carried width.symm nearest
      · exact greatestMiddle_le positive wide

-- A double nearest to `q`, either one where two are as near. An infinity counts as near from the
-- middle above the greatest double on.
def Nearest (q : ℚ) (x : Float) : Prop :=
  match value? x with
  | some v => ∀ y w, value? y = some w → |q - v| ≤ |q - w|
  | none => x.isInf ∧ greatestMiddle ≤ |q|

section
variable {x y : Float} {v w : ℚ}

theorem Nearest.exists_value (nearest : Nearest q x) (small : |q| ≤ 2 ^ 64) :
    ∃ v, value? x = some v := by
  unfold Nearest at nearest
  split at nearest
  · rename_i value
    exact ⟨_, value⟩
  · exact absurd (lt_greatestMiddle.trans_le nearest.2) (not_lt.mpr small)

theorem Nearest.near (nearest : Nearest q x) (value : value? x = some v)
    (double : value? y = some w) : |q - v| ≤ |q - w| := by
  unfold Nearest at nearest
  rw [value] at nearest
  exact nearest y w double

theorem Nearest.ge (nearest : Nearest q x) (value : value? x = some v)
    (double : value? y = some w) (above : w ≤ q) : w ≤ v := by
  have near := nearest.near value double
  rw [abs_of_nonneg (sub_nonneg.mpr above)] at near
  linarith [le_abs_self (q - v)]

theorem Nearest.le (nearest : Nearest q x) (value : value? x = some v)
    (double : value? y = some w) (below : q ≤ w) : v ≤ w := by
  have near := nearest.near value double
  rw [abs_of_nonpos (sub_nonpos.mpr below)] at near
  linarith [neg_le_abs (q - v)]

theorem Nearest.le_mirrored (nearest : Nearest q x) (value : value? x = some v)
    (double : value? y = some w) : v ≤ w ∨ v ≤ 2 * q - w := by
  rcases le_total q w with below | above
  · exact .inl (nearest.le value double below)
  · have near := nearest.near value double
    rw [abs_of_nonneg (sub_nonneg.mpr above)] at near
    exact .inr (by linarith [neg_le_abs (q - v)])

end

theorem dyadic {x : Float} (value : value? x = some q) :
    ∃ m e : ℤ, |m| < 2 ^ 53 ∧ q = m * 2 ^ e := by
  obtain ⟨sign, -, rfl⟩ | ⟨sign, m, e, -, -, short, rfl⟩ := valued value
  · exact ⟨0, 0, by decide, by norm_num⟩
  · refine ⟨sign.apply m, e, ?_, rfl⟩
    cases sign <;> simp only [Sign.apply, abs_neg, Nat.abs_cast] <;> omega

theorem grid_nearest {shift : ℤ} {k : ℤ} (nearest : HalfEven (q * 2 ^ (-shift)) k) (j : ℤ) :
    |q - (k : ℚ) * 2 ^ shift| ≤ |q - (j : ℚ) * 2 ^ shift| := by
  have unit : (0 : ℚ) < 2 ^ shift := zpow_pos two_pos shift
  have scale (j : ℤ) : |q - (j : ℚ) * 2 ^ shift| = |q * 2 ^ (-shift) - (j : ℚ)| * 2 ^ shift := by
    rw [zpow_neg]
    nth_rewrite 3 [← abs_of_pos unit]
    rw [← abs_mul, sub_mul, inv_mul_cancel_right₀ unit.ne']
  rw [scale, scale]
  exact mul_le_mul_of_nonneg_right (nearest.nearest j) unit.le

theorem finer_le {m e shift : ℤ} (fits : |m| < 2 ^ 53) (finer : e < shift) :
    (m : ℚ) * 2 ^ e ≤ 2 ^ 52 * 2 ^ shift := by
  have small : (m : ℚ) ≤ 2 ^ 53 := by exact_mod_cast (le_abs_self m).trans fits.le
  calc (m : ℚ) * 2 ^ e ≤ 2 ^ 53 * 2 ^ (shift - 1) := by
        gcongr
        · norm_num
        · omega
    _ = 2 ^ 52 * 2 ^ shift := by
        rw [zpow_sub_one₀ two_ne_zero]
        ring

-- Doubles with the leading bit of `n` or a greater one are multiples of the unit in its last place,
-- and the others lie below the power of two that begins `n`.
theorem scaled_nearest {n : Nat} (positive : 0 < n) {k m : ℤ}
    (nearest : HalfEven (n * 2 ^ (52 - n.log2 : ℤ)) k) (fits : |m| < 2 ^ 53) (e : ℤ) :
    |(n : ℚ) - (k : ℚ) * 2 ^ (n.log2 - 52 : ℤ)| ≤ |n - (m : ℚ) * 2 ^ e| := by
  rw [← neg_sub (n.log2 : ℤ)] at nearest
  have grid := grid_nearest nearest
  rcases le_or_gt (n.log2 - 52 : ℤ) e with multiple | finer
  · obtain ⟨more, rfl⟩ := Int.le.dest multiple
    have whole : (m : ℚ) * 2 ^ (n.log2 - 52 + more : ℤ) =
        (m * 2 ^ more : ℤ) * 2 ^ (n.log2 - 52 : ℤ) := by
      rw [zpow_add₀ two_ne_zero, zpow_natCast]
      push_cast
      ring
    rw [whole]
    exact grid _
  · have leading : (2 : ℚ) ^ 52 * 2 ^ (n.log2 - 52 : ℤ) ≤ n := by
      have least : (2 : ℚ) ^ n.log2 ≤ n := by exact_mod_cast Nat.log2_self_le positive.ne'
      refine le_of_eq_of_le ?_ least
      rw [← zpow_natCast, ← zpow_natCast, ← zpow_add₀ two_ne_zero]
      congr 1
      omega
    have below := finer_le fits finer
    refine (grid (2 ^ 52)).trans ?_
    push_cast
    rw [abs_of_nonneg (by linarith), abs_of_nonneg (by linarith)]
    linarith

theorem ofMagnitude_nearest (sign : Sign) {n : Nat} (positive : 0 < n) :
    Nearest (sign.apply n : ℤ) (ofMagnitude sign n) := by
  obtain ⟨k, nearest, value | ⟨unpacked, beyond⟩⟩ := ofMagnitude_value sign positive
  · unfold Nearest
    rw [value]
    intro y w double
    obtain ⟨m, e, fits, rfl⟩ := dyadic double
    cases sign with
    | positive => exact scaled_nearest positive nearest fits e
    | negative =>
      have mirrored := scaled_nearest positive nearest (abs_neg m ▸ fits) e
      simp only [Sign.apply, Int.cast_neg, Int.cast_natCast, neg_mul, sub_neg_eq_add] at mirrored ⊢
      rwa [neg_add_eq_sub, abs_sub_comm, ← neg_add', abs_neg]
  · have none : value? (ofMagnitude sign n) = none := congrArg rational? unpacked
    unfold Nearest
    rw [none]
    refine ⟨?_, ?_⟩
    · change UnpackedFloat.isInf _ = true
      rw [unpacked]
      rfl
    · cases sign <;> simpa [Sign.apply] using beyond

theorem ofMagnitude_exact (sign : Sign) {m shift : Nat} (small : m < 2 ^ 53) (few : shift ≤ 970) :
    value? (ofMagnitude sign (m * 2 ^ shift)) = some ((sign.apply (m * 2 ^ shift : Nat) : ℤ) : ℚ) := by
  rcases m.eq_zero_or_pos with rfl | positive
  · rw [Nat.zero_mul]
    cases sign <;> rfl
  have width : (m * 2 ^ shift).log2 = m.log2 + shift := by
    rw [← Nat.shiftLeft_eq, log2_shiftLeft positive]
  have short : m.log2 < 53 := (Nat.log2_lt positive.ne').mpr small
  obtain ⟨left, leftEq⟩ : ∃ left : Nat, (52 - m.log2 : ℤ) = left := Int.eq_ofNat_of_zero_le (by omega)
  have units : (2 : ℚ) ^ left * 2 ^ ((m * 2 ^ shift).log2 - 52 : ℤ) = 2 ^ shift := by
    rw [← zpow_natCast, ← zpow_natCast, ← zpow_add₀ two_ne_zero]
    congr 1
    omega
  obtain ⟨k, nearest, value | ⟨-, beyond⟩⟩ :=
    ofMagnitude_value sign (Nat.mul_pos positive (Nat.two_pow_pos shift))
  · have scaled : ((m * 2 ^ shift : Nat) : ℚ) * 2 ^ (52 - (m * 2 ^ shift).log2 : ℤ) =
        (m * 2 ^ left : ℤ) := by
      rw [← neg_sub _ (52 : ℤ), zpow_neg, ← div_eq_mul_inv, div_eq_iff (by positivity)]
      push_cast
      rw [← units, mul_assoc]
    rw [scaled] at nearest
    have full : (k : ℤ) = m * 2 ^ left := nearest.unique (.whole _)
    rw [value, full]
    congr 1
    cases sign <;> simp only [Sign.apply] <;> push_cast [← units] <;> ring
  · exact absurd beyond (not_le.mpr (shifted_lt_greatestMiddle small few))

theorem ofMagnitude_small (sign : Sign) {n : Nat} (small : n < 2 ^ 53) :
    value? (ofMagnitude sign n) = some ((sign.apply n : ℤ) : ℚ) := by
  have exact := ofMagnitude_exact sign small (Nat.zero_le 970)
  rwa [pow_zero, mul_one] at exact

theorem value_whole {sign : Sign} {n : Nat} (positive : 0 < n)
    (value : value? (ofMagnitude sign n) = some q) : ∃ j : ℤ, q = j := by
  rcases lt_or_ge n (2 ^ 53) with small | great
  · rw [ofMagnitude_small sign small] at value
    cases value
    exact ⟨_, rfl⟩
  · obtain ⟨k, -, rounded | ⟨unpacked, -⟩⟩ := ofMagnitude_value sign positive
    · have width : 53 ≤ n.log2 := (Nat.le_log2 positive.ne').mpr great
      obtain ⟨shift, wide⟩ : ∃ shift : Nat, (n.log2 - 52 : ℤ) = shift :=
        Int.eq_ofNat_of_zero_le (by omega)
      rw [rounded, wide, zpow_natCast] at value
      cases value
      exact ⟨sign.apply k * 2 ^ shift, by push_cast; rfl⟩
    · have none : value? (ofMagnitude sign n) = none := congrArg rational? unpacked
      rw [none] at value
      cases value

theorem ofWhole_cases (k : ℤ) : k = 0 ∨ ∃ (sign : Sign) (n : Nat), 0 < n ∧ k = sign.apply n ∧
    ofWhole k = ofMagnitude sign n := by
  rcases lt_trichotomy k 0 with negative | zero | positive
  · refine .inr ⟨.negative, (-k).toNat, by omega, by simp only [Sign.apply]; omega, ?_⟩
    unfold ofWhole Float.Model.ofInt UnpackedFloat.ofInt UnpackedFloat.normalize
    rw [Int.compare_eq_lt.mpr negative]
    rfl
  · exact .inl zero
  · refine .inr ⟨.positive, k.toNat, by omega, by simp only [Sign.apply]; omega, ?_⟩
    unfold ofWhole Float.Model.ofInt UnpackedFloat.ofInt UnpackedFloat.normalize
    rw [Int.compare_eq_gt.mpr positive]
    rfl

theorem ofWhole_zero : value? (ofWhole 0) = some 0 := rfl

variable {k : ℤ}

theorem ofWhole_exact (m : ℤ) (shift : Nat) (shifted : k = m * 2 ^ shift) (small : |m| < 2 ^ 53)
    (few : shift ≤ 970) : value? (ofWhole k) = some (k : ℚ) := by
  subst shifted
  obtain zero | ⟨sign, n, -, magnitude, same⟩ := ofWhole_cases (m * 2 ^ shift)
  · rw [zero]
    exact ofWhole_zero
  · have shifted : m.natAbs * 2 ^ shift = n := by
      have both := congrArg Int.natAbs magnitude
      rw [Int.natAbs_mul, Int.natAbs_pow] at both
      cases sign <;> simpa [Sign.apply] using both
    rw [Int.abs_eq_natAbs] at small
    rw [same, magnitude, ← shifted]
    exact ofMagnitude_exact sign (by omega) few

theorem ofWhole_small (small : |k| < 2 ^ 53) : value? (ofWhole k) = some (k : ℚ) :=
  ofWhole_exact k 0 (by rw [pow_zero, mul_one]) small (Nat.zero_le 970)

theorem ofWhole_two_pow (shift : Nat) (few : shift ≤ 970) :
    value? (ofWhole (2 ^ shift)) = some ((2 ^ shift : ℤ) : ℚ) :=
  ofWhole_exact 1 shift (one_mul _).symm (by norm_num) few

theorem ofWhole_neg_two_pow (shift : Nat) (few : shift ≤ 970) :
    value? (ofWhole (-2 ^ shift)) = some ((-2 ^ shift : ℤ) : ℚ) :=
  ofWhole_exact (-1) shift (neg_one_mul _).symm (by norm_num) few

theorem ofWhole_whole (value : value? (ofWhole k) = some q) : ∃ j : ℤ, q = j := by
  obtain rfl | ⟨sign, n, positive, rfl, same⟩ := ofWhole_cases k
  · rw [ofWhole_zero] at value
    cases value
    exact ⟨0, rfl⟩
  · exact value_whole positive (same ▸ value)

theorem ofWhole_nearest (k : ℤ) : Nearest k (ofWhole k) := by
  obtain rfl | ⟨sign, n, positive, rfl, same⟩ := ofWhole_cases k
  · unfold Nearest
    rw [ofWhole_zero]
    intro y w _
    simp
  · rw [same]
    exact ofMagnitude_nearest sign positive

end ShuntingYard.Binary
