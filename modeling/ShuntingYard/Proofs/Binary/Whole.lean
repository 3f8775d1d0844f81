import ShuntingYard.Proofs.Binary.Rounding

-- What a double's value becomes on the way to a whole number.
namespace ShuntingYard.Binary
open Float.Model UnpackedFloat

variable {x : Float} {q : ℚ} {k : ℤ} {magnitude : Nat → Int → Nat}

theorem wholeBy_none (none : value? x = none) : wholeBy magnitude x = x := by
  unfold wholeBy
  split
  · rename_i unpacked
    unfold value? at none
    rw [unpacked] at none
    cases none
  · rfl

theorem wholeBy_zero (unpacked : x.toModel.unpack = .zero sign) : wholeBy magnitude x = x := by
  unfold wholeBy
  rw [unpacked]

theorem wholeBy_finite {positive : 0 < m} (unpacked : x.toModel.unpack = .finite sign m e positive)
    (kept : ∀ shift, magnitude m (.ofNat shift) = m * 2 ^ shift)
    (small : ∀ shift, magnitude m (.negSucc shift) < 2 ^ 53) :
    value? (wholeBy magnitude x) = some ((sign.apply (magnitude m e) : ℤ) : ℚ) := by
  unfold wholeBy
  cases e with
  | ofNat shift =>
    rw [unpacked]
    unfold value?
    rw [unpacked, kept, rational?]
    cases sign <;> simp [Sign.apply]
  | negSucc shift =>
    rw [unpacked]
    exact ofMagnitude_small sign (small shift)

theorem nearestEven_value (value : value? x = some q) :
    ∃ k : ℤ, HalfEven q k ∧ value? (nearestEven x) = some (k : ℚ) := by
  obtain ⟨sign, unpacked, rfl⟩ | ⟨sign, m, e, positive, unpacked, short, rfl⟩ := valued value
  · refine ⟨0, .whole 0, ?_⟩
    unfold nearestEven
    rw [wholeBy_zero unpacked, value]
    rfl
  · refine ⟨sign.apply (magnitudeNearest m e), ?_, wholeBy_finite unpacked (fun _ => rfl) fun shift => ?_⟩
    · have nearest := magnitudeNearest_halfEven m e
      cases sign with
      | positive => exact nearest
      | negative =>
        simp only [Sign.apply, Int.cast_neg, neg_mul]
        exact nearest.neg
    · have shrunk : (m : ℚ) * 2 ^ Int.negSucc shift ≤ (m : ℤ) := by
        refine mul_le_of_le_one_right (Nat.cast_nonneg m) ?_
        exact zpow_le_one_of_nonpos₀ one_le_two (Int.negSucc_lt_zero shift).le
      have fits := (magnitudeNearest_halfEven m (.negSucc shift)).le shrunk
      omega

def towardZero (q : ℚ) : ℤ := if 0 ≤ q then ⌊q⌋ else ⌈q⌉

theorem towardZero_intCast (k : ℤ) : towardZero k = k := by
  unfold towardZero
  rw [Int.floor_intCast, Int.ceil_intCast, ite_self]

theorem towardZero_zero : towardZero 0 = 0 := by
  exact_mod_cast towardZero_intCast 0

theorem towardZero_le (above : (k : ℚ) ≤ q) : k ≤ towardZero q := by
  unfold towardZero
  split
  · exact Int.le_floor.mpr above
  · exact Int.cast_le.mp (above.trans (Int.le_ceil q))

theorem le_towardZero (below : q ≤ k) : towardZero q ≤ k := by
  unfold towardZero
  split
  · exact Int.cast_le.mp ((Int.floor_le q).trans below)
  · exact Int.ceil_le.mpr below

theorem apply_magnitudeFloor (sign : Sign) {m : Nat} (positive : 0 < m) (e : Int) :
    sign.apply (magnitudeFloor m e) = towardZero ((sign.apply m : ℤ) * (2 : ℚ) ^ e) := by
  have magnitude := magnitude_pos positive e
  have whole : ((⌊(m : ℚ) * 2 ^ e⌋₊ : Nat) : ℤ) = ⌊(m : ℚ) * 2 ^ e⌋ := Int.natCast_floor_eq_floor magnitude.le
  unfold towardZero
  rw [magnitudeFloor_eq]
  cases sign with
  | positive => exact whole.trans (if_pos magnitude.le).symm
  | negative =>
    simp only [Sign.apply, Int.cast_neg, Int.cast_natCast, neg_mul]
    rw [if_neg (by linarith), Int.ceil_neg, whole]

theorem truncated_value (value : value? x = some q) :
    value? (truncated x) = some (towardZero q : ℚ) := by
  obtain ⟨sign, unpacked, rfl⟩ | ⟨sign, m, e, positive, unpacked, short, rfl⟩ := valued value
  · unfold truncated
    rw [wholeBy_zero unpacked, value, towardZero_zero, Int.cast_zero]
  · rw [← apply_magnitudeFloor sign positive]
    refine wholeBy_finite unpacked (fun _ => rfl) fun shift => ?_
    exact (Nat.div_le_self m _).trans_lt short

theorem clamp_value {least greatest : ℤ} (value : value? x = some q) :
    clamp least greatest x = max least (min greatest (towardZero q)) := by
  unfold clamp
  obtain ⟨sign, unpacked, rfl⟩ | ⟨sign, m, e, positive, unpacked, short, rfl⟩ := valued value
  · rw [unpacked, towardZero_zero]
  · rw [unpacked, ← apply_magnitudeFloor sign positive]

theorem clamp_whole {least greatest : ℤ} (value : value? x = some (k : ℚ)) (above : least ≤ k)
    (below : k ≤ greatest) : clamp least greatest x = k := by
  rw [clamp_value value, towardZero_intCast, min_eq_right below, max_eq_right above]

end ShuntingYard.Binary
