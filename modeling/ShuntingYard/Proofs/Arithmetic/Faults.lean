import ShuntingYard.Arithmetic

-- What can go wrong in each of the built-in operations.
namespace ShuntingYard.Arithmetic
open Binary

-- The arguments that the operation of a symbol goes to, by their places.
def accesses : Char → List Nat
  | '!' => [0]
  | '^' | '*' | '/' | '%' | '+' | '-' => [0, 1]
  | _ => []

-- An operation on too few arguments would go to one that is not there.
def Unsupported (c : Char) (count : Nat) : Prop := accesses c = [] ∨ ∃ i ∈ accesses c, count ≤ i

inductive Raises : Char → OperateError → Prop where
  | overflow (noQuotient : c ≠ '/') : Raises c (.overflow c)
  | divideByZero : Raises '%' (.divideByZero '%')

variable {pow : Float → Float → Float} {c : Char} {m n : Number} {cause : OperateError}
  {args : List Number}

theorem exactly_error (failed : exactly c k = .error cause) : cause = .overflow c := by
  unfold exactly at failed
  split at failed
  · cases failed
  · cases failed
    rfl

theorem promote_error (failed : promote onWords onFloats m n = .error cause) :
    ∃ i j, onWords i j = .error cause := by
  unfold promote at failed
  split at failed
  · exact ⟨_, _, failed⟩
  · cases failed

theorem promote_exactly {on : Int64 → Int64 → Int}
    (failed : promote (fun i j => exactly c (on i j)) onFloats m n = .error cause) :
    cause = .overflow c := by
  obtain ⟨i, j, inWords⟩ := promote_error failed
  exact exactly_error inWords

theorem wordRemainder_error {i j : Int64} (failed : wordRemainder i j = .error cause) :
    Raises '%' cause := by
  unfold wordRemainder at failed
  split at failed
  · cases failed
    exact .divideByZero
  · split at failed
    · exact exactly_error failed ▸ .overflow (by decide)
    · cases failed
      exact .overflow (by decide)

theorem checkedWord_error (failed : checkedWord c x = .error cause) : cause = .overflow c := by
  unfold checkedWord at failed
  split at failed
  · cases failed
  · cases failed
    rfl

theorem power_error (failed : power pow m n = .error cause) : cause = .overflow '^' := by
  unfold power at failed
  dsimp only at failed
  split at failed
  · rename_i i j
    cases converted : checkedWord '^' (truncated (pow (Number.integer i).toFloat (Number.integer j).toFloat))
    all_goals
      rw [converted] at failed
      cases failed
    exact checkedWord_error converted
  · cases failed

theorem wordFactorial_error {i : Int64} (failed : wordFactorial i = .error cause) :
    cause = .overflow '!' := by
  unfold wordFactorial at failed
  split at failed
  · cases failed
  · cases failed
    rfl

theorem factorial_error (failed : factorial n = .error cause) : cause = .overflow '!' := by
  unfold factorial at failed
  split at failed
  · exact wordFactorial_error failed
  · rename_i x
    cases converted : checkedWord '!' (nearestEven x) with
    | ok i => exact wordFactorial_error (by rwa [converted] at failed)
    | error first =>
      rw [converted] at failed
      cases failed
      exact checkedWord_error converted

theorem apply_raises (supported : ¬ Unsupported c args.length)
    (failed : apply pow c args = .error cause) : Raises c cause := by
  unfold apply at failed
  split at failed
  · exact factorial_error failed ▸ .overflow (by decide)
  · exact power_error failed ▸ .overflow (by decide)
  · exact promote_exactly failed ▸ .overflow (by decide)
  · cases failed
  · obtain ⟨i, j, inWords⟩ := promote_error failed
    exact wordRemainder_error inWords
  · exact promote_exactly failed ▸ .overflow (by decide)
  · exact promote_exactly failed ▸ .overflow (by decide)
  -- Whatever the symbol is, these are not enough for it.
  · refine absurd ?_ supported
    unfold Unsupported accesses
    rcases args with _ | ⟨m, _ | ⟨n, rest⟩⟩ <;> split <;> simp_all

theorem apply_unsupported :
    apply pow c args = .error (.unsupported c) ↔ Unsupported c args.length := by
  constructor
  · intro failed
    refine Classical.byContradiction fun supported => ?_
    cases apply_raises supported failed
  · intro unsupported
    unfold apply
    split <;> simp [Unsupported, accesses] at unsupported ⊢

theorem accesses_known (known : operator? c = some op) :
    accesses c ≠ [] ∧ ∀ i ∈ accesses c, i < op.arity := by
  unfold operator? at known
  split at known <;> cases known <;> decide

theorem supported (known : operator? c = some op) (fits : args.length = op.arity) :
    ¬ Unsupported c args.length := by
  obtain ⟨present, inRange⟩ := accesses_known known
  rintro (none | ⟨i, accessed, beyond⟩)
  · exact present none
  · have within := inRange i accessed
    omega

end ShuntingYard.Arithmetic
