import ShuntingYard.Conversion
import ShuntingYard.Proofs.Binary.Whole

-- When a number is taken for a whole one of a target, and for which.
namespace ShuntingYard
open Binary

-- What a number comes to as a whole one. Infinities and NaN come to none.
inductive Number.RoundsTo : Number → ℤ → Prop where
  | integer (n : Int64) : RoundsTo (.integer n) n.toInt
  | float (value : value? x = some q) (nearest : HalfEven q k) : RoundsTo (.float x) k

theorem Number.RoundsTo.unique {n : Number} {j k : ℤ} (left : n.RoundsTo j)
    (right : n.RoundsTo k) : j = k := by
  cases left with
  | integer n =>
    cases right
    rfl
  | float value nearest =>
    obtain _ | ⟨same, also⟩ := right
    cases value.symm.trans same
    exact nearest.unique also

namespace WholeTarget
variable {n : Number} {x : Float} {k : ℤ}

theorem hold?_eq_some (t : WholeTarget) (v : t.Value) : t.hold? k = some v ↔ k = v.val := by
  unfold hold?
  split
  · exact ⟨fun held => Option.some_inj.mp held ▸ rfl, fun same => congrArg some (Subtype.ext same)⟩
  · rename_i misfit
    exact ⟨nofun, fun same => (misfit (same ▸ v.property)).elim⟩

theorem hold?_eq_none (t : WholeTarget) : t.hold? k = none ↔ ¬ (t.least ≤ k ∧ k ≤ t.greatest) :=
  dite_eq_right_iff.trans (by simp)

theorem ofWhole_least (t : WholeTarget) : value? (ofWhole t.least) = some (t.least : ℚ) := by
  cases t
  · exact ofWhole_neg_two_pow 31 (by norm_num)
  · exact ofWhole_neg_two_pow 63 (by norm_num)
  · exact ofWhole_zero
  · exact ofWhole_zero

theorem ofWhole_beyond (t : WholeTarget) :
    value? (ofWhole t.greatest + 1) = some ((t.greatest + 1 : ℤ) : ℚ) := by
  cases t
  · refine (rfl : _ = some (((2 ^ 52 : ℤ) : ℚ) * 2 ^ (-21 : ℤ))).trans (congrArg some ?_)
    norm_num [greatest, Int32.toInt_maxValue]
  · refine (rfl : _ = some (((2 ^ 52 : ℤ) : ℚ) * 2 ^ (11 : ℤ))).trans (congrArg some ?_)
    norm_num [greatest, Int64.toInt_maxValue]
  · refine (rfl : _ = some (((2 ^ 52 : ℤ) : ℚ) * 2 ^ (-20 : ℤ))).trans (congrArg some ?_)
    norm_num [greatest, UInt32.size]
  · refine (rfl : _ = some (((2 ^ 52 : ℤ) : ℚ) * 2 ^ (12 : ℤ))).trans (congrArg some ?_)
    norm_num [greatest, UInt64.size]

theorem ofNumber?_whole (t : WholeTarget) (value : value? (nearestEven x) = some (k : ℚ)) :
    t.ofNumber? (.float x) = t.hold? k := by
  have within : ((nearestEven x).isFinite ∧ ofWhole t.least ≤ nearestEven x ∧
      nearestEven x < ofWhole t.greatest + 1) ↔ t.least ≤ k ∧ k ≤ t.greatest := by
    rw [isFinite_iff, le_iff t.ofWhole_least value, lt_iff value t.ofWhole_beyond, Int.cast_le,
      Int.cast_lt, Int.lt_add_one_iff, and_iff_right ⟨_, value⟩]
  unfold ofNumber? hold?
  dsimp only
  by_cases fits : t.least ≤ k ∧ k ≤ t.greatest
  · rw [if_pos (within.mpr fits), dif_pos fits]
    exact congrArg some (Subtype.ext (clamp_whole value fits.1 fits.2))
  · rw [if_neg (mt within.mp fits), dif_neg fits]

theorem ofNumber?_none (t : WholeTarget) (none : value? x = none) :
    t.ofNumber? (.float x) = .none := by
  have kept : nearestEven x = x := wholeBy_none none
  unfold ofNumber?
  dsimp only
  rw [kept, if_neg]
  rintro ⟨finite, -⟩
  obtain ⟨q, value⟩ := isFinite_iff.mp finite
  cases none.symm.trans value

theorem ofNumber?_rounded (t : WholeTarget) (rounds : n.RoundsTo k) : t.ofNumber? n = t.hold? k := by
  cases rounds with
  | integer n => rfl
  | float value nearest =>
    obtain ⟨j, found, whole⟩ := nearestEven_value value
    rw [nearest.unique found]
    exact t.ofNumber?_whole whole

theorem ofNumber?_or (t : WholeTarget) (n : Number) :
    (∃ k, n.RoundsTo k) ∨ (∀ k, ¬ n.RoundsTo k) ∧ t.ofNumber? n = none := by
  cases n with
  | integer n => exact .inl ⟨_, .integer n⟩
  | float x =>
    cases value : value? x with
    | some q =>
      obtain ⟨k, nearest, -⟩ := nearestEven_value value
      exact .inl ⟨k, .float value nearest⟩
    | none =>
      refine .inr ⟨?_, t.ofNumber?_none value⟩
      rintro k (_ | ⟨finite, -⟩)
      cases value.symm.trans finite

end WholeTarget

namespace Number
variable {n : Number} {t : WholeTarget}

theorem convert_ok (v : t.Value) : n.convert (.whole t) = .ok v ↔ t.ofNumber? n = some v := by
  unfold convert
  dsimp only
  split
  · rename_i found
    rw [found]
    exact ⟨fun same => congrArg some (Except.ok.inj same),
      fun same => congrArg Except.ok (Option.some.inj same)⟩
  · rename_i missing
    rw [missing]
    exact ⟨nofun, nofun⟩

theorem convert_error :
    n.convert (.whole t) = .error (.conversion n (.whole t)) ↔ t.ofNumber? n = none := by
  unfold convert
  dsimp only
  split
  · rename_i found
    rw [found]
    exact ⟨nofun, nofun⟩
  · rename_i missing
    exact ⟨fun _ => missing, fun _ => rfl⟩

theorem convert_whole (n : Number) (t : WholeTarget) :
    (∀ v : t.Value, n.convert (.whole t) = .ok v ↔ n.RoundsTo v.val) ∧
      (n.convert (.whole t) = .error (.conversion n (.whole t)) ↔
        ∀ k, n.RoundsTo k → ¬ (t.least ≤ k ∧ k ≤ t.greatest)) := by
  obtain ⟨k, rounds⟩ | ⟨never, none⟩ := t.ofNumber?_or n
  · have held := t.ofNumber?_rounded rounds
    constructor
    · intro v
      rw [convert_ok, held, WholeTarget.hold?_eq_some]
      exact ⟨fun same => same ▸ rounds, rounds.unique⟩
    · rw [convert_error, held, WholeTarget.hold?_eq_none]
      exact ⟨fun misfit j again => rounds.unique again ▸ misfit, fun misfits => misfits k rounds⟩
  · constructor
    · intro v
      rw [convert_ok, none]
      exact ⟨nofun, fun rounds => (never _ rounds).elim⟩
    · rw [convert_error]
      exact ⟨fun _ k rounds => (never k rounds).elim, fun _ => none⟩

end Number
end ShuntingYard
