import Mathlib
import ShuntingYard.Binary

namespace ShuntingYard.Binary
open Float.Model UnpackedFloat

def Canonical : UnpackedFloat → Prop
  | .finite _ mantissa exponent _ =>
    mantissa < 2 ^ 53 ∧ -1074 ≤ exponent ∧ exponent ≤ 971 ∧ (2 ^ 52 ≤ mantissa ∨ exponent = -1074)
  | _ => True

theorem toNat_leadingOne (bits : BitVec w) : (1#1 ++ bits).toNat = 2 ^ w + bits.toNat := by
  rw [BitVec.toNat_append, ← Nat.shiftLeft_add_eq_or_of_lt bits.isLt, BitVec.toNat_ofNat,
    Nat.shiftLeft_eq, Nat.mod_eq_of_lt (by decide), Nat.one_mul]

theorem canonical_unpack (x : Float) : Canonical x.toModel.unpack := by
  have mantissa : (@unpackMantissa .binary64 x.toModel.toBits.toBitVec).toNat < 2 ^ 52 :=
    BitVec.isLt _
  have exponent : (@unpackExponent .binary64 x.toModel.toBits.toBitVec).toNat < 2 ^ 11 :=
    BitVec.isLt _
  have bias : Format.binary64.exponentBias = 1023 := rfl
  unfold Float.Model.unpack UnpackedFloat.unpack
  dsimp only
  split
  · split <;> trivial
  · rename_i notLast
    rw [← BitVec.toNat_inj] at notLast
    change ¬ _ = 2047 at notLast
    split
    · rename_i first
      split
      · trivial
      · simp only [first, Canonical, bias]
        exact ⟨by omega, by decide, by decide, .inr (by decide)⟩
    · rename_i notFirst
      rw [← BitVec.toNat_inj] at notFirst
      change ¬ _ = 0 at notFirst
      simp only [Canonical, toNat_leadingOne, bias]
      omega

theorem finite_congr {sign : Sign} {m n : Nat} {e f : Int} {p : 0 < m} {q : 0 < n} (mantissa : m = n)
    (exponent : e = f) : UnpackedFloat.finite sign m e p = .finite sign n f q := by
  subst mantissa exponent
  rfl

theorem unpack_normal (sign : Sign) {exponent : BitVec 11} (inner : 0 < exponent.toNat ∧ exponent.toNat < 2047)
    (mantissa : BitVec 52) (positive : 0 < 2 ^ 52 + mantissa.toNat) :
    UnpackedFloat.unpack .binary64 (packComponents .binary64 sign exponent mantissa) =
      .finite sign (2 ^ 52 + mantissa.toNat) (exponent.toNat - 1075) positive := by
  have notLast : exponent ≠ -1#11 := fun last => by
    rw [last] at inner
    exact absurd inner.2 (by decide)
  have notFirst : exponent ≠ 0#11 := fun first => by
    rw [first] at inner
    exact absurd inner.1 (by decide)
  unfold UnpackedFloat.unpack
  simp only [unpackExponent_packComponents, unpackMantissa_packComponents,
    unpackSign_packComponents, Sign.ofBitVec_toBitVec]
  rw [if_neg notLast, if_neg notFirst]
  exact finite_congr (toNat_leadingOne _) rfl

theorem unpack_subnormal (sign : Sign) {mantissa : BitVec 52} (positive : 0 < mantissa.toNat) :
    UnpackedFloat.unpack .binary64 (packComponents .binary64 sign 0#11 mantissa) =
      .finite sign mantissa.toNat (-1074) positive := by
  have nonzero : mantissa ≠ 0#52 := fun zero => by
    rw [zero] at positive
    exact absurd positive (by decide)
  unfold UnpackedFloat.unpack
  simp only [unpackExponent_packComponents, unpackMantissa_packComponents,
    unpackSign_packComponents, Sign.ofBitVec_toBitVec]
  rw [if_neg (by decide), if_pos trivial, dif_neg nonzero]
  rfl

theorem unpack_pack {u : UnpackedFloat} (canonical : Canonical u) :
    (Float.Model.pack u).unpack = u := by
  change UnpackedFloat.unpack .binary64 (UnpackedFloat.pack .binary64 u) = u
  cases u with
  | notANumber => rfl
  | infinity sign => cases sign <;> rfl
  | zero sign => cases sign <;> rfl
  | finite sign mantissa exponent positive =>
    obtain ⟨below, least, greatest, full⟩ := canonical
    have width : mantissa.log2 + 1 = 53 ↔ 2 ^ 52 ≤ mantissa := by
      have exactly := Nat.log2_eq_iff (k := 52) positive.ne'
      omega
    have biased : (exponent + Format.binary64.exponentBias + (52 : Nat)).toNat =
        (exponent + 1075).toNat := by
      change (exponent + 1023 + 52).toNat = _
      omega
    unfold UnpackedFloat.pack
    dsimp only
    rw [biased, if_neg (by omega)]
    split
    · rename_i normal
      have full := width.mp normal
      have stored : (BitVec.ofNat 11 (exponent + 1075).toNat).toNat = (exponent + 1075).toNat := by
        rw [BitVec.toNat_ofNat, Nat.mod_eq_of_lt (by omega)]
      have rest : (BitVec.ofNat 52 mantissa).toNat = mantissa - 2 ^ 52 := by
        rw [BitVec.toNat_ofNat]
        omega
      exact (unpack_normal sign (by rw [stored]; omega) _ (by omega)).trans
        (finite_congr (by rw [rest]; omega) (by rw [stored]; omega))
    · rename_i subnormal
      have short := mt width.mpr subnormal
      have rest : (BitVec.ofNat 52 mantissa).toNat = mantissa := by
        rw [BitVec.toNat_ofNat, Nat.mod_eq_of_lt (by omega)]
      exact (unpack_subnormal sign (by omega)).trans (finite_congr rest (by omega))

def rational? : UnpackedFloat → Option ℚ
  | .zero _ => some 0
  | .finite sign mantissa exponent _ => some (sign.apply mantissa * 2 ^ exponent)
  | .infinity _ => none
  | .notANumber => none

def value? (x : Float) : Option ℚ := rational? x.toModel.unpack

variable {m n : Nat} {e f : Int} {p : 0 < m}

theorem magnitude_pos (positive : 0 < m) (e : Int) : 0 < (m : ℚ) * 2 ^ e :=
  mul_pos (Nat.cast_pos.mpr positive) (zpow_pos two_pos e)

theorem magnitude_lt (below : m < 2 ^ 53) (least : -1074 ≤ e) (full : 2 ^ 52 ≤ n ∨ f = -1074)
    (less : e < f) : (m : ℚ) * 2 ^ e < n * 2 ^ f := by
  have leading : (2 : ℚ) ^ 52 ≤ n := by
    exact_mod_cast full.resolve_right (by omega)
  calc (m : ℚ) * 2 ^ e < 2 ^ 53 * 2 ^ e := by
        gcongr
        exact_mod_cast below
    _ = 2 ^ 52 * 2 ^ (e + 1) := by
        rw [zpow_add_one₀ two_ne_zero]
        ring
    _ ≤ n * 2 ^ f := by
        gcongr
        · norm_num
        · omega

theorem compares_magnitude {s t : Sign} {q : 0 < n} (left : Canonical (.finite s m e p))
    (right : Canonical (.finite t n f q)) :
    ((compare e f).then (compare m n)).Compares ((m : ℚ) * 2 ^ e) (n * 2 ^ f) := by
  obtain ⟨leftBelow, leftLeast, -, leftFull⟩ := left
  obtain ⟨rightBelow, rightLeast, -, rightFull⟩ := right
  rcases lt_trichotomy e f with less | rfl | greater
  · rw [Int.compare_eq_lt.mpr less]
    exact magnitude_lt leftBelow leftLeast rightFull less
  · have unit : (0 : ℚ) < 2 ^ e := zpow_pos two_pos e
    rw [Int.compare_eq_eq.mpr rfl, Ordering.eq_then]
    rcases lt_trichotomy m n with less | rfl | greater
    · rw [Nat.compare_eq_lt.mpr less]
      exact mul_lt_mul_of_pos_right (Nat.cast_lt.mpr less) unit
    · rw [Nat.compare_eq_eq.mpr rfl]
      rfl
    · rw [Nat.compare_eq_gt.mpr greater]
      exact mul_lt_mul_of_pos_right (Nat.cast_lt.mpr greater) unit
  · rw [Int.compare_eq_gt.mpr greater]
    exact magnitude_lt rightBelow rightLeast leftFull greater

theorem rational?_negative : rational? (.finite .negative m e p) = some (-((m : ℚ) * 2 ^ e)) := by
  simp [rational?, Sign.apply]

theorem compares_neg {order : Ordering} {a b : ℚ} (compares : order.Compares a b) :
    order.swap.Compares (-a) (-b) := by
  cases order
  · exact neg_lt_neg compares
  · exact congrArg Neg.neg compares
  · exact neg_lt_neg compares

theorem compares_rational {u v : UnpackedFloat} {q r : ℚ} (uCanonical : Canonical u)
    (vCanonical : Canonical v) (left : rational? u = some q) (right : rational? v = some r) :
    ∃ order, u.compare v = some order ∧ order.Compares q r := by
  rcases u with s | _ | s | ⟨s, m, e, p⟩
  · cases left
  · cases left
  · cases left
    rcases v with t | _ | t | ⟨_ | _, n, f, positive⟩
    · cases right
    · cases right
    · cases right
      exact ⟨.eq, rfl, rfl⟩
    · cases rational?_negative.symm.trans right
      exact ⟨.gt, rfl, neg_lt_zero.mpr (magnitude_pos positive f)⟩
    · cases right
      exact ⟨.lt, rfl, magnitude_pos positive f⟩
  · rcases v with t | _ | t | ⟨t, n, f, positive⟩
    · cases right
    · cases right
    · cases right
      cases s
      · cases rational?_negative.symm.trans left
        exact ⟨.lt, rfl, neg_lt_zero.mpr (magnitude_pos p e)⟩
      · cases left
        exact ⟨.gt, rfl, magnitude_pos p e⟩
    · have mPos := magnitude_pos p e
      have nPos := magnitude_pos positive f
      have compares := compares_magnitude uCanonical vCanonical
      cases s <;> cases t
      · cases rational?_negative.symm.trans left
        cases rational?_negative.symm.trans right
        exact ⟨_, rfl, compares_neg compares⟩
      · cases rational?_negative.symm.trans left
        cases right
        exact ⟨.lt, rfl, (neg_lt_zero.mpr mPos).trans nPos⟩
      · cases left
        cases rational?_negative.symm.trans right
        exact ⟨.gt, rfl, (neg_lt_zero.mpr nPos).trans mPos⟩
      · cases left
        cases right
        exact ⟨_, rfl, compares⟩

variable {x y : Float} {q r : ℚ}

theorem valued (value : value? x = some q) : (∃ sign, x.toModel.unpack = .zero sign ∧ q = 0) ∨
    ∃ sign m e positive, x.toModel.unpack = .finite sign m e positive ∧ m < 2 ^ 53 ∧
      q = (sign.apply m : ℤ) * (2 : ℚ) ^ e := by
  have canonical := canonical_unpack x
  unfold value? at value
  cases unpacked : x.toModel.unpack with
  | infinity sign =>
    rw [unpacked] at value
    cases value
  | notANumber =>
    rw [unpacked] at value
    cases value
  | zero sign =>
    rw [unpacked] at value
    cases value
    exact .inl ⟨sign, rfl, rfl⟩
  | finite sign m e positive =>
    rw [unpacked] at value canonical
    cases value
    exact .inr ⟨sign, m, e, positive, rfl, canonical.1, rfl⟩

theorem lt_iff (left : value? x = some q) (right : value? y = some r) : x < y ↔ q < r := by
  obtain ⟨order, compared, compares⟩ :=
    compares_rational (canonical_unpack x) (canonical_unpack y) left right
  change decide (x.toModel.unpack.lt y.toModel.unpack = true) = true ↔ _
  rw [decide_eq_true_iff, UnpackedFloat.lt, compared, beq_iff_eq, Option.some_inj]
  exact compares.eq_lt

theorem le_iff (left : value? x = some q) (right : value? y = some r) : x ≤ y ↔ q ≤ r := by
  obtain ⟨order, compared, compares⟩ :=
    compares_rational (canonical_unpack x) (canonical_unpack y) left right
  change decide (x.toModel.unpack.le y.toModel.unpack = true) = true ↔ _
  rw [decide_eq_true_iff, UnpackedFloat.le, compared, Option.any_some, Ordering.isLE_iff_ne_gt,
    compares.eq_gt, not_lt]

theorem isFinite_iff : x.isFinite ↔ ∃ q, value? x = some q := by
  change x.toModel.unpack.isFinite = true ↔ ∃ q, rational? x.toModel.unpack = some q
  cases x.toModel.unpack <;> simp [UnpackedFloat.isFinite, rational?]

end ShuntingYard.Binary
