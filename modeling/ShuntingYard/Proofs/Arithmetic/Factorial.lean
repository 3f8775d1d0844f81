import ShuntingYard.Proofs.Arithmetic.Words

-- Factorials of all numbers, and what they cost.
namespace ShuntingYard.Arithmetic
open Binary

variable {n : Int64} {x : Float} {k : ℤ} {c : Char}

-- A product with the count of all products so far. The count outlasts a product that fails.
def counted (product : Int64) (factor : Nat) : OptionT (StateM Nat) Int64 := do
  modify (· + 1)
  OptionT.mk (pure (word? (product.toInt * factor)))

theorem counted_succ (count factor steps : Nat) (product : Int64) :
    (foldFactors counted (count + 1) factor product).run.run steps =
      match word? (product.toInt * factor) with
      | some grown => (foldFactors counted count (factor + 1) grown).run.run (steps + 1)
      | none => (none, steps + 1) := by
  have step : (counted product factor).run.run steps =
      (word? (product.toInt * factor), steps + 1) := rfl
  rw [foldFactors, OptionT.run_bind, Option.elimM, StateT.run_bind, step]
  cases word? (product.toInt * factor) <;> rfl

theorem greatest_factorial {f : Nat} (fits : (f.factorial : ℤ) ≤ Int64.maxValue.toInt) : f ≤ 20 := by
  by_contra beyond
  have grown : Nat.factorial 21 ≤ f.factorial := Nat.factorial_le (by omega)
  have misfit : Int64.maxValue.toInt < Nat.factorial 21 := by decide
  omega

theorem counted_run (count f steps : Nat) (product : Int64) (reached : product.toInt = f.factorial) :
    ∃ more ≤ 21 - f, (foldFactors counted count (f + 1) product).run.run steps =
      (risingProduct count (f + 1) product, steps + more) := by
  induction count generalizing f steps product with
  | zero => exact ⟨0, Nat.zero_le _, rfl⟩
  | succ count ih =>
    have within : f ≤ 20 := greatest_factorial (reached ▸ product.toInt_le)
    have next : product.toInt * (f + 1 : Nat) = (f + 1).factorial := by
      rw [reached, Nat.factorial_succ, Nat.mul_comm, Nat.cast_mul]
    rw [counted_succ, risingProduct_succ, next]
    by_cases fits : Fits (f + 1).factorial
    · rw [word?_fits fits]
      obtain ⟨more, few, run⟩ := ih (f + 1) (steps + 1) _ (toInt_ofInt fits)
      have last : f + 1 ≤ 20 := greatest_factorial fits.2
      exact ⟨more + 1, by omega, run.trans (congrArg (Prod.mk _) (by omega))⟩
    · rw [word?_misfit fits]
      exact ⟨1, by omega, rfl⟩

theorem counted_factorial (n : Int64) :
    ∃ steps ≤ 21, (foldFactors counted n.toInt.toNat 1 1).run.run 0 =
      (risingProduct n.toInt.toNat 1 1, steps) := by
  obtain ⟨steps, few, run⟩ := counted_run n.toInt.toNat 0 0 1 rfl
  exact ⟨steps, few, run.trans (congrArg _ (Nat.zero_add steps))⟩

theorem factorial_whole (value : value? (nearestEven x) = some (k : ℚ)) :
    factorial (.float x) =
      if Fits k then factorial (.integer (.ofInt k)) else .error (.overflow '!') := by
  have float : factorial (.float x) = (checkedWord '!' (nearestEven x)).bind wordFactorial := rfl
  rw [float, checkedWord_whole value]
  split <;> rfl

theorem factorial_none (none : value? x = none) : factorial (.float x) = .error (.overflow '!') := by
  have kept : nearestEven x = x := wholeBy_none none
  have float : factorial (.float x) = (checkedWord '!' (nearestEven x)).bind wordFactorial := rfl
  rw [float, kept, checkedWord_none none]
  rfl

theorem factorial_converted (x : Float) :
    (∃ v : WholeTarget.int64.Value, (Number.float x).convert (.whole .int64) = .ok v ∧
      factorial (.float x) = factorial (.integer (.ofInt v.val))) ∨
    (Number.float x).convert (.whole .int64) = .error (.conversion (.float x) (.whole .int64)) ∧
      factorial (.float x) = .error (.overflow '!') := by
  cases value : value? x with
  | none =>
    have missing := WholeTarget.int64.ofNumber?_none value
    exact .inr ⟨Number.convert_error.mpr missing, factorial_none value⟩
  | some q =>
    obtain ⟨k, -, whole⟩ := nearestEven_value value
    have held := WholeTarget.int64.ofNumber?_whole whole
    have result := factorial_whole whole
    by_cases fits : Fits k
    · rw [if_pos fits] at result
      refine .inl ⟨⟨k, fits⟩, (Number.convert_ok _).mpr (held.trans ?_), result⟩
      exact (WholeTarget.hold?_eq_some _ _).mpr rfl
    · rw [if_neg fits] at result
      refine .inr ⟨Number.convert_error.mpr (held.trans ?_), result⟩
      exact (WholeTarget.hold?_eq_none _).mpr fits

theorem factorial_overflow (n : Int64) : factorial (.integer n) = .error (.overflow '!') ↔
    Int64.maxValue.toInt < n.toInt.toNat.factorial := by
  have positive : (0 : Int) < n.toInt.toNat.factorial := Nat.cast_pos.mpr (Nat.factorial_pos _)
  have least : Int64.minValue.toInt < 0 := by decide
  change wordFactorial n = _ ↔ _
  rw [wordFactorial_eq, exactly_overflow]
  unfold Fits
  omega

theorem factorial_exact :
    (∀ n : Int64,
      (∀ number, factorial (.integer n) = .ok number ↔
        ∃ m : Int64, number = .integer m ∧ m.toInt = n.toInt.toNat.factorial) ∧
      (factorial (.integer n) = .error (.overflow '!') ↔
        Int64.maxValue.toInt < n.toInt.toNat.factorial) ∧
      ∃ steps ≤ 21, (foldFactors counted n.toInt.toNat 1 1).run.run 0 =
        (risingProduct n.toInt.toNat 1 1, steps)) ∧
    ∀ x : Float,
      (∀ v, (Number.float x).convert (.whole .int64) = .ok v →
        factorial (.float x) = factorial (.integer (.ofInt v.val))) ∧
      (factorial (.float x) = .error (.overflow '!') ↔
        (∃ failure, (Number.float x).convert (.whole .int64) = .error failure) ∨
          ∃ v, (Number.float x).convert (.whole .int64) = .ok v ∧
            Int64.maxValue.toInt < v.val.toNat.factorial) := by
  constructor
  · intro n
    refine ⟨fun number => ?_, factorial_overflow n, counted_factorial n⟩
    change wordFactorial n = _ ↔ _
    rw [wordFactorial_eq, exactly_ok]
  · intro x
    obtain ⟨v, converted, result⟩ | ⟨converted, result⟩ := factorial_converted x
    · rw [converted, result, factorial_overflow, toInt_ofInt v.property]
      constructor
      · rintro w ⟨⟩
        rfl
      · constructor
        · exact fun beyond => .inr ⟨v, rfl, beyond⟩
        · rintro (⟨failure, ⟨⟩⟩ | ⟨w, ⟨⟩, beyond⟩)
          exact beyond
    · rw [converted, result]
      constructor
      · rintro w ⟨⟩
      · exact ⟨fun _ => .inl ⟨_, rfl⟩, fun _ => rfl⟩

end ShuntingYard.Arithmetic
