import ShuntingYard.Provider.Table
import ShuntingYard.Proofs.Engine.BuiltIn
import ShuntingYard.Proofs.Fixed

namespace ShuntingYard

def Directory.calculated (find : Char → Option Provider) (source : String) : Except Error Number :=
  ((fixed find).parse source ()).1.bind fun program => ((fixed find).evaluate program ()).1

namespace Engine
open Directory
variable {r : Registry} {rank : Char → Nat} {enabled : List Bool} {actions : List Action} {e : Engine}

def holder (r : Registry) (enabled : List Bool) (c : Char) : Option Provider :=
  (r.owner enabled c).bind fun place => r.providers[place]?

-- All that an engine remembers is what it would find out again.
structure Steady (r : Registry) (enabled : List Bool) (e : Engine) : Prop where
  same : e.registry = r
  faithful : r.Faithful enabled e.state

theorem steady_after (ranked : r.Ranked rank) (quiet : ∀ place on, .switch place on ∉ actions)
    (shared : Bool) :
    Steady r (r.providers.map Provider.enabled) (after actions (start r shared)) where
  same := after_registry actions _
  faithful := after_upheld (e := start r shared) (Registry.faithful_kept ranked _).upheld
    (fun place on switched => absurd switched (quiet place on)) (r.faithful_start shared)

theorem Steady.parsed (ranked : r.Ranked rank) (steady : Steady r enabled e) (source : String) :
    Steady r enabled (e.parse source).2 where
  same := steady.same
  faithful := parse_upheld (steady.same ▸ (Registry.faithful_kept ranked enabled).upheld) source
    steady.faithful

theorem Steady.evaluated (ranked : r.Ranked rank) (steady : Steady r enabled e) (program : Program) :
    Steady r enabled (e.evaluate program).2 where
  same := steady.same
  faithful := evaluate_upheld (steady.same ▸ (Registry.faithful_kept ranked enabled).upheld) program
    steady.faithful

theorem Steady.finds (ranked : r.Ranked rank) (steady : Steady r enabled e) (client : Client) (c : Char) :
    (e.registry.directory client).Finds e.state c (holder r enabled c) := by
  rw [steady.same]
  exact Registry.finds_owner ranked steady.faithful client c

theorem Steady.parse (ranked : r.Ranked rank) (steady : Steady r enabled e) (source : String) :
    (e.parse source).1 = ((fixed (holder r enabled)).parse source ()).1 :=
  parse_fixed (steady.finds ranked .parser) .refl source

theorem Steady.evaluate (ranked : r.Ranked rank) (steady : Steady r enabled e) (program : Program) :
    (e.evaluate program).1 = ((fixed (holder r enabled)).evaluate program ()).1 :=
  evaluate_fixed (steady.finds ranked .evaluator) .refl program

theorem Steady.calculate (ranked : r.Ranked rank) (steady : Steady r enabled e) (source : String) :
    (e.calculate source).1 = calculated (holder r enabled) source := by
  unfold calculated
  rw [← steady.parse ranked source]
  unfold Engine.calculate
  dsimp only
  cases (e.parse source).1 with
  | ok program => exact (steady.parsed ranked source).evaluate ranked program
  | error error => rfl

theorem BuiltIn.steady (builtIn : e.BuiltIn) : Steady arithmetic.registry [true] e :=
  ⟨builtIn.registry_eq, builtIn.faithful⟩

-- Where no answer of a provider hangs on more than the symbol, none of an engine does. What a
-- provider requires may count, as long as this leads downwards; if nobody requires anything, every
-- rank will do.
theorem history_unseen (ranked : r.Ranked rank) (quiet : ∀ place on, .switch place on ∉ actions)
    (shared freshly : Bool) :
    let e := after actions (start r shared)
    let fresh := start r freshly
    (∀ source, (e.parse source).1 = (fresh.parse source).1 ∧
      (e.calculate source).1 = (fresh.calculate source).1) ∧
    (∀ program, (e.evaluate program).1 = (fresh.evaluate program).1) ∧
    ∀ used : Engine, used.BuiltIn → ∀ source,
      (used.parse source).1 = (arithmetic.parse source).1 ∧
      (used.calculate source).1 = (arithmetic.calculate source).1 ∧
      ∀ t, (used.calculateAs t source).1 = (arithmetic.calculateAs t source).1 := by
  intro e fresh
  have one : Steady r (r.providers.map Provider.enabled) e := steady_after ranked quiet shared
  have other : Steady r (r.providers.map Provider.enabled) fresh :=
    ⟨rfl, r.faithful_start freshly⟩
  refine ⟨fun source => ⟨?_, ?_⟩, fun program => ?_, fun used builtIn source => ?_⟩
  · rw [one.parse ranked, other.parse ranked]
  · rw [one.calculate ranked, other.calculate ranked]
  · rw [one.evaluate ranked, other.evaluate ranked]
  · have mine := builtIn.steady
    have first := builtIn_arithmetic.steady
    have calculated : (used.calculate source).1 = (arithmetic.calculate source).1 := by
      rw [mine.calculate ranked_arithmetic, first.calculate ranked_arithmetic]
    refine ⟨?_, calculated, fun t => ?_⟩
    · rw [mine.parse ranked_arithmetic, first.parse ranked_arithmetic]
    · simp only [calculateAs, calculated]

def cross : Provider :=
  Table.provider ⟨['×'], some '*', true, [('×', ⟨'×', .left, 2, 2⟩, .arithmetic '*')]⟩

def crossFirst : Registry := ⟨[cross, .arithmetic], by simp⟩

theorem ranked_crossFirst : crossFirst.Ranked fun c => if c = '×' then 1 else 0 := by
  intro p listed c claims d required
  have either : p = cross ∨ p = .arithmetic := by simpa [crossFirst] using listed
  rcases either with rfl | rfl
  · cases required
    have only : c = '×' := by simpa [cross, Table.provider] using claims
    rw [only]
    decide
  · cases required

theorem history_unseen_reentrant :
    let actions := [.parse "2×3)", .lookup '÷', .parse "2-", .evaluate]
    let e := after actions (start crossFirst false)
    let fresh := start crossFirst true
    crossFirst.Ranked (fun c => if c = '×' then 1 else 0) ∧
      (∀ place on, .switch place on ∉ actions) ∧
      (e.parse "7*6×5").1 = (fresh.parse "7*6×5").1 ∧
      (e.calculate "7*6×5").1 = (fresh.calculate "7*6×5").1 := by
  intro actions e fresh
  have quiet : ∀ place on, .switch place on ∉ actions := by simp [actions]
  obtain ⟨same, -, -⟩ := history_unseen ranked_crossFirst quiet false true
  exact ⟨ranked_crossFirst, quiet, same "7*6×5"⟩

end Engine
end ShuntingYard
