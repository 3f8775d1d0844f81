import Mathlib.Data.List.Forall2
import Mathlib.Data.List.OfFn
import Mathlib.Data.List.Induction
import ShuntingYard.Proofs.Program.Reduction

namespace ShuntingYard

-- A postfix program before it was flattened. An operator has as many operands as it takes, be that
-- none or many.
inductive Tree where
  | number (value : Number)
  | apply (op : Operator) (operands : Fin op.arity → Tree)

namespace Tree

def postorder : Tree → List Token
  | number n => [.operand n]
  | apply op operands =>
    (List.ofFn fun i => (operands i).postorder).flatten ++ [.operator op]

def subtrees : Tree → List Tree
  | number n => [number n]
  | apply op operands => (List.ofFn fun i => (operands i).subtrees).flatten ++ [apply op operands]

def value? (find : Char → Option Provider) : Tree → Option Number
  | number n => some n
  | apply op operands =>
    ((List.ofFn fun i => (operands i).value? find).mapM id).bind fun args =>
      (op.outcome args (find op.symbol)).toOption

-- What fails at the root, where nothing fails below it.
def fault? (find : Char → Option Provider) : Tree → Option EvalFault
  | number _ => none
  | apply op operands =>
    ((List.ofFn operands).mapM (value? find)).bind fun args =>
      match op.outcome args (find op.symbol) with
      | .ok _ => none
      | .error fault => some fault

def firstFault? (find : Char → Option Provider) (t : Tree) : Option EvalFault :=
  t.subtrees.findSome? (fault? find)

variable {find : Char → Option Provider} {op : Operator} {t u : Tree} {ts us : List Tree}

theorem postorder_apply (op : Operator) (operands : Fin op.arity → Tree) :
    (apply op operands).postorder = (List.ofFn operands).flatMap postorder ++ [.operator op] := by
  simp only [postorder, List.flatMap_def, List.map_ofFn, Function.comp_def]

theorem subtrees_apply (op : Operator) (operands : Fin op.arity → Tree) :
    (apply op operands).subtrees =
      (List.ofFn operands).flatMap subtrees ++ [apply op operands] := by
  simp only [subtrees, List.flatMap_def, List.map_ofFn, Function.comp_def]

theorem value?_apply (op : Operator) (operands : Fin op.arity → Tree) :
    (apply op operands).value? find =
      ((List.ofFn operands).mapM (value? find)).bind fun args =>
        (op.outcome args (find op.symbol)).toOption := by
  have each : (List.ofFn fun i => (operands i).value? find) =
      (List.ofFn operands).map (value? find) := by
    rw [List.map_ofFn]
    rfl
  rw [value?, each, List.mapM_map]
  rfl

theorem exists_operands (ts : List Tree) (fits : ts.length = op.arity) :
    ∃ operands : Fin op.arity → Tree, List.ofFn operands = ts := by
  rw [← fits]
  exact ⟨ts.get, List.ofFn_get ts⟩

-- What a text ends with is one tree at most.
def Cancels (t : Tree) : Prop :=
  ∀ {u front back}, front ++ t.postorder = back ++ u.postorder → front = back ∧ t = u

theorem forest_cancel (each : ∀ t ∈ ts, Cancels t) (fits : ts.length = us.length)
    (same : front ++ ts.flatMap postorder = back ++ us.flatMap postorder) :
    front = back ∧ ts = us := by
  -- The last tree is cut off first, because the end of a text is where a tree can be told.
  induction ts using List.reverseRecOn generalizing us with
  | nil =>
    cases List.length_eq_zero_iff.mp fits.symm
    exact ⟨by simpa using same, rfl⟩
  | append_singleton ts t ih =>
    rcases List.eq_nil_or_concat us with rfl | ⟨others, u, rfl⟩
    · simp at fits
    · rw [List.concat_eq_append] at fits same ⊢
      simp only [List.flatMap_append, List.flatMap_singleton, ← List.append_assoc] at same
      obtain ⟨shorter, rfl⟩ := each t (by simp) same
      have rest : ∀ t ∈ ts, Cancels t := fun t listed => each t (List.mem_append_left _ listed)
      obtain ⟨fronts, rfl⟩ := ih rest (by simpa using fits) shorter
      exact ⟨fronts, rfl⟩

theorem postorder_cancel (t : Tree) : Cancels t := by
  induction t with
  | number n =>
    intro u front back same
    cases u with
    | number m =>
      obtain ⟨fronts, last⟩ := List.append_inj' same rfl
      cases last
      exact ⟨fronts, rfl⟩
    | apply op operands =>
      rw [postorder_apply, ← List.append_assoc] at same
      cases (List.append_inj' same rfl).2
  | apply op operands ih =>
    intro u front back same
    cases u with
    | number m =>
      rw [postorder_apply, ← List.append_assoc] at same
      cases (List.append_inj' same rfl).2
    | apply other others =>
      rw [postorder_apply, postorder_apply, ← List.append_assoc, ← List.append_assoc] at same
      obtain ⟨shorter, last⟩ := List.append_inj' same rfl
      cases last
      have each : ∀ t ∈ List.ofFn operands, Cancels t := (List.forall_mem_ofFn_iff).mpr ih
      obtain ⟨fronts, trees⟩ := forest_cancel each (by simp) shorter
      exact ⟨fronts, congrArg (apply op) (List.ofFn_injective trees)⟩

theorem postorder_injective (same : t.postorder = u.postorder) : t = u :=
  (postorder_cancel t (show [] ++ t.postorder = [] ++ u.postorder from same)).2

end Tree
end ShuntingYard
