import Mathlib.Data.Fin.VecNotation
import ShuntingYard.Provider.Table
import ShuntingYard.Proofs.Program.Valuation
import ShuntingYard.Proofs.Registry.Resolution

namespace ShuntingYard

namespace Directory
variable {directory : Directory σ} {s : σ} {find : Char → Option Provider} {program : Program}
  {t : Tree}

theorem evaluate_reduced (evaluated : (directory.evaluate program s).1 = .ok v) :
    (directory.reduce program.tokens [] s).1 = .ok [.operand v] := by
  unfold evaluate at evaluated
  dsimp only at evaluated
  split at evaluated
  · rename_i reduced
    cases evaluated
    exact reduced
  · cases evaluated
  · cases evaluated

theorem evaluate_ok_iff (fixed : ∀ c, directory.Finds s c (find c))
    (plain : ∀ token ∈ program.tokens, token.isParen = false) (v : Number) :
    (directory.evaluate program s).1 = .ok v ↔
      ∃ t : Tree, t.postorder = program.tokens ∧ t.value? find = some v := by
  constructor
  · intro evaluated
    have noTrees : ([] : List Tree).mapM (Tree.value? find) = some [] := rfl
    obtain ⟨us, ms, values, flat, last⟩ :=
      reduce_trees fixed plain .refl noTrees (evaluate_reduced evaluated)
    cases pushed_injective (show pushed [v] = pushed ms from last)
    obtain ⟨t, rest, has, later, rfl⟩ := List.forall₂_cons_right_iff.mp (Tree.values_iff.mp values)
    cases later
    exact ⟨t, by simpa using flat, has⟩
  · rintro ⟨t, same, has⟩
    exact (same ▸ (settles fixed t).value .refl has).evaluate

theorem evaluate_fault (fixed : ∀ c, directory.Finds s c (find c))
    (same : t.postorder = program.tokens) (missing : t.value? find = none) :
    ∃ fault, t.firstFault? find = some fault ∧
      (directory.evaluate program s).1 = .error (.evaluation fault program) := by
  obtain ⟨fault, first, failed⟩ := (settles fixed t).fault .refl missing
  rw [same] at failed
  exact ⟨fault, first, failed.evaluate⟩

end Directory

namespace Engine

-- The machine knows nothing of trees, and still it answers for exactly those programs that are the
-- postorder of one, with its value or its first failure.
theorem evaluate_tree {e : Engine} {find : Char → Option Provider} {program : Program}
    (fixed : ∀ c, (e.registry.directory .evaluator).Finds e.state c (find c))
    (plain : ∀ token ∈ program.tokens, token.isParen = false) :
    (∀ v, (e.evaluate program).1 = .ok v ↔
      ∃ t : Tree, t.postorder = program.tokens ∧ t.value? find = some v) ∧
    (∀ t u : Tree, t.postorder = program.tokens → u.postorder = program.tokens → t = u) ∧
    ∀ t : Tree, t.postorder = program.tokens → t.value? find = none →
      ∃ fault, t.firstFault? find = some fault ∧
        (e.evaluate program).1 = .error (.evaluation fault program) := by
  refine ⟨Directory.evaluate_ok_iff fixed plain, ?_, ?_⟩
  · intro t u one other
    exact Tree.postorder_injective (one.trans other.symm)
  · intro t same missing
    exact Directory.evaluate_fault fixed same missing

def ternary : Engine :=
  .start ⟨[Table.provider
    { claims := ['#', '?']
      requires := none
      enabled := true
      entries := [('#', ⟨'#', .left, 2, 0⟩, .count), ('?', ⟨'?', .left, 1, 3⟩, .digits)] }],
    by simp⟩ true

theorem ranked_ternary : ternary.registry.Ranked fun _ => 0 := by
  intro p listed c claims d required
  cases List.mem_singleton.mp listed
  cases required

theorem evaluate_tree_ternary :
    (ternary.evaluate ⟨"handmade", [.operand (.integer 4), .operator ⟨'#', .left, 2, 0⟩,
      .operand (.integer 3), .operator ⟨'?', .left, 1, 3⟩]⟩).1 = .ok (.integer 403) := by
  have fixed := Registry.finds_owner ranked_ternary (ternary.registry.faithful_start true) .evaluator
  refine ((evaluate_tree fixed (by decide)).1 _).mpr
    ⟨.apply ⟨'?', .left, 1, 3⟩ ![.number (.integer 4), .apply ⟨'#', .left, 2, 0⟩ ![],
      .number (.integer 3)], rfl, ?_⟩
  rfl

end Engine
end ShuntingYard
