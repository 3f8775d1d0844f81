import ShuntingYard.Proofs.Arithmetic.Faults

namespace ShuntingYard

inductive Kind where
  | integer
  | float
  deriving DecidableEq

def Number.kind : Number → Kind
  | .integer _ => .integer
  | .float _ => .float

theorem Number.isFloat_iff (n : Number) : n.isFloat ↔ n.kind = .float := by
  cases n <;> simp [isFloat, kind]

namespace Kind

def joint (args : List Kind) : Kind := if .float ∈ args then .float else .integer

-- The kind of a result, by the kinds of the arguments. A quotient is a float whatever they are, and
-- a factorial never is.
def ofResult (symbol : Char) (args : List Kind) : Kind :=
  if symbol = '/' then .float
  else if symbol = '!' then .integer
  else joint args

theorem ofResult_reverse (symbol : Char) (args : List Kind) :
    ofResult symbol args.reverse = ofResult symbol args := by
  simp only [ofResult, joint, List.mem_reverse]

end Kind

namespace Arithmetic
open Kind
variable {pow : Float → Float → Float} {c : Char} {m n k : Number} {args : List Number}

theorem exactly_kind (exact : exactly c i = .ok k) : k.kind = .integer := by
  unfold exactly at exact
  split at exact <;> cases exact
  rfl

theorem joint_mixed (mixed : ∀ i j, m = .integer i → n = .integer j → False) :
    joint [m.kind, n.kind] = .float := by
  cases m with
  | float x => rfl
  | integer i =>
    cases n with
    | float x => rfl
    | integer j => exact (mixed i j rfl rfl).elim

theorem promote_kind (words : ∀ i j k, onWords i j = .ok k → k.kind = .integer)
    (promoted : promote onWords onFloats m n = .ok k) :
    k.kind = joint [m.kind, n.kind] := by
  unfold promote at promoted
  split at promoted
  · exact words _ _ _ promoted
  · rename_i mixed
    cases promoted
    exact (joint_mixed mixed).symm

theorem wordRemainder_kind {i j : Int64} (remains : wordRemainder i j = .ok k) :
    k.kind = .integer := by
  unfold wordRemainder at remains
  split at remains
  · cases remains
  · split at remains
    · exact exactly_kind remains
    · cases remains

theorem power_kind (raised : power pow m n = .ok k) :
    k.kind = joint [m.kind, n.kind] := by
  unfold power at raised
  dsimp only at raised
  split at raised
  · rename_i i j
    cases converted :
      checkedWord '^' (Binary.truncated (pow (Number.integer i).toFloat (Number.integer j).toFloat))
    all_goals
      rw [converted] at raised
      cases raised
    rfl
  · rename_i mixed
    cases raised
    exact (joint_mixed mixed).symm

theorem factorial_kind (computed : factorial n = .ok k) : k.kind = .integer := by
  have words {i : Int64} (computed : wordFactorial i = .ok k) : k.kind = .integer := by
    unfold wordFactorial at computed
    split at computed <;> cases computed
    rfl
  unfold factorial at computed
  split at computed
  · exact words computed
  · rename_i x
    cases converted : checkedWord '!' (Binary.nearestEven x) with
    | ok i => exact words (by rwa [converted] at computed)
    | error cause =>
      rw [converted] at computed
      cases computed

theorem apply_kind (known : operator? c = some op) (fits : args.length = op.arity)
    (applied : apply pow c args = .ok k) : k.kind = ofResult c (args.map Number.kind) := by
  have pair {m n : Number} {rest : List Number} (two : (m :: n :: rest).length = 2) : rest = [] := by
    simpa using two
  unfold apply at applied
  split at applied
  · exact factorial_kind applied
  · cases known
    cases pair fits
    exact power_kind applied
  · cases known
    cases pair fits
    exact promote_kind (fun _ _ _ => exactly_kind) applied
  · cases applied
    rfl
  · cases known
    cases pair fits
    exact promote_kind (fun _ _ _ => wordRemainder_kind) applied
  · cases known
    cases pair fits
    exact promote_kind (fun _ _ _ => exactly_kind) applied
  · cases known
    cases pair fits
    exact promote_kind (fun _ _ _ => exactly_kind) applied
  · cases applied

end Arithmetic
end ShuntingYard
