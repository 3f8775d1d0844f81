import ShuntingYard.Proofs.Engine.Evaluation
import ShuntingYard.Proofs.Engine.Faults
import ShuntingYard.Proofs.Program.Kinds

namespace ShuntingYard.Engine
variable {e : Engine} {program : Program} {source : String} {n : Number}

theorem holder_arithmetical : Arithmetical (holder arithmetic.registry [true]) := by
  intro c p owned
  rw [holder, owner_arithmetic] at owned
  split at owned
  · cases owned
    rfl
  · cases owned

theorem Steady.kind (steady : Steady arithmetic.registry [true] e)
    (known : ∀ op, .operator op ∈ program.tokens → Arithmetic.operator? op.symbol = some op)
    (evaluated : (e.evaluate program).1 = .ok n) : program.kind? = some n.kind := by
  have reached : Stacks _ program.tokens [.operand n] :=
    Directory.stacks_reduced (steady.finds ranked_arithmetic .evaluator)
      (Directory.evaluate_reduced evaluated)
  have plain : ∀ side, .paren side ∉ program.tokens := fun side listed => by
    simpa using reached.paren_kept holder_arithmetical.selective listed
  obtain ⟨ns, same, kinds⟩ := Kind.stack?_stacks holder_arithmetical reached known plain
  obtain ⟨m, rfl, single⟩ := List.map_eq_singleton_iff.mp same.symm
  cases single
  simp only [Program.kind?, kinds, List.map_singleton]

theorem BuiltIn.integers (builtIn : e.BuiltIn) (accepted : (e.parse source).1 = .ok program)
    (noPoint : '.' ∉ source.toList) (undivided : '/' ∉ source.toList)
    (kind : program.kind? = some k) : k = .integer := by
  have parsed : ((e.registry.directory .parser).parse source e.state).1 = .ok program := accepted
  have literals : ∀ n, .operand n ∈ program.tokens → n.kind = .integer := by
    intro n listed
    obtain ⟨text, rest, within, read⟩ := Directory.parse_read parsed listed
    have whole := Decimal.read?_pointless (fun point => noPoint (within.subset point)) read
    cases n with
    | integer i => rfl
    | float x => cases whole
  have quotients : ∀ op, .operator op ∈ program.tokens → op.symbol ≠ '/' := by
    intro op listed same
    exact undivided (same ▸ (builtIn.listed accepted listed).2)
  unfold Program.kind? at kind
  split at kind
  · rename_i stacked
    cases kind
    exact Kind.stack?_integer literals quotients stacked k (List.mem_singleton.mpr rfl)
  · cases kind

theorem evaluate_kind (builtIn : e.BuiltIn) :
    (∀ program n,
      (∀ op, .operator op ∈ program.tokens → Arithmetic.operator? op.symbol = some op) →
      (e.evaluate program).1 = .ok n →
      ∃ kind, program.kind? = some kind ∧ (n.isFloat ↔ kind = .float)) ∧
    ∀ source, '.' ∉ source.toList → '/' ∉ source.toList →
      ∀ n, (e.calculate source).1 = .ok n → n.isFloat = false := by
  refine ⟨fun program n known evaluated => ?_, fun source noPoint undivided n calculated => ?_⟩
  · exact ⟨n.kind, builtIn.steady.kind known evaluated, n.isFloat_iff⟩
  · unfold calculate at calculated
    dsimp only at calculated
    split at calculated
    · rename_i program accepted
      have known op (listed : .operator op ∈ program.tokens) := (builtIn.listed accepted listed).1
      have kind := (builtIn.steady.parsed ranked_arithmetic source).kind known calculated
      have whole := builtIn.integers accepted noPoint undivided kind
      rw [← Bool.not_eq_true, n.isFloat_iff, whole]
      decide
    · cases calculated

theorem evaluate_kind_rounded :
    let program : Program := ⟨"handmade", [.operand (.float (.ofScientific 45 true 1)),
      .operator ⟨'!', .right, 3, 1⟩, .operand (.integer 7), .operator ⟨'%', .left, 2, 2⟩]⟩
    BuiltIn arithmetic ∧
      (∀ op, .operator op ∈ program.tokens → Arithmetic.operator? op.symbol = some op) ∧
      (arithmetic.evaluate program).1 = .ok (.integer 3) ∧
      (∃ kind, program.kind? = some kind ∧ ((Number.integer 3).isFloat ↔ kind = .float)) ∧
      '.' ∉ "7-2*4".toList ∧ '/' ∉ "7-2*4".toList ∧
      (arithmetic.calculate "7-2*4").1 = .ok (.integer (-1)) ∧
      (Number.integer (-1)).isFloat = false := by
  intro program
  have known : ∀ op, .operator op ∈ program.tokens → Arithmetic.operator? op.symbol = some op := by
    simp [program, Arithmetic.operator?]
  have evaluated : (arithmetic.evaluate program).1 = .ok (.integer 3) := by rfl
  have calculated : (arithmetic.calculate "7-2*4").1 = .ok (.integer (-1)) := by
    cbv
  have noPoint : '.' ∉ "7-2*4".toList := by decide
  have undivided : '/' ∉ "7-2*4".toList := by decide
  obtain ⟨kinds, whole⟩ := evaluate_kind builtIn_arithmetic
  exact ⟨builtIn_arithmetic, known, evaluated, kinds program _ known evaluated, noPoint, undivided,
    calculated, whole _ noPoint undivided _ calculated⟩

end ShuntingYard.Engine
