import Mathlib
import ShuntingYard.Proofs.Engine.Afresh
import ShuntingYard.Proofs.Registry.Extension

namespace ShuntingYard.Engine
open Directory
variable {r : Registry} {q : Provider} {rank : Char → Nat} {s : Registry.State}
  {actions others : List Action}

theorem backed_after (ranked : r.Ranked rank) (independent : r.Independent q)
    (quiet : ∀ place on, .switch place on ∈ actions → r.providers.length ≤ place) (shared : Bool) :
    r.Backed q (after actions (start (r.append q) shared)).state :=
  after_upheld (e := start (r.append q) shared) (Registry.backed_kept ranked independent).upheld
    (fun place on switched _ backed => backed.switch (quiet place on switched) on)
    (r.backed_start q shared)

theorem covers_holder (ranked : r.Ranked rank) (independent : r.Independent q)
    (noOpening : q.claims '(' = false) (noClosing : q.claims ')' = false)
    (backed : r.Backed q s) (client : Client) :
    ((r.append q).directory client).Covers s (holder r r.switches) := by
  intro c covered
  refine Registry.finds_settled ranked independent backed ?_ client
  rcases covered with held | rfl | rfl
  · obtain ⟨p, held⟩ := Option.isSome_iff_exists.mp held
    obtain ⟨place, owned, -⟩ := Option.bind_eq_some_iff.mp held
    exact .inl (by simp [owned])
  · exact .inr noOpening
  · exact .inr noClosing

theorem extension_conservative (ranked : r.Ranked rank) (independent : r.Independent q)
    (noOpening : q.claims '(' = false) (noClosing : q.claims ')' = false)
    (quiet : ∀ place on, .switch place on ∉ actions)
    (mostlyQuiet : ∀ place on, .switch place on ∈ others → r.providers.length ≤ place)
    (shared apart : Bool) :
    let e := after actions (start r shared)
    let extended := after others (start (r.append q) apart)
    (∀ source program, (e.parse source).1 = .ok program →
      (extended.parse source).1 = .ok program) ∧
    ∀ program n, (e.evaluate program).1 = .ok n → (extended.evaluate program).1 = .ok n := by
  intro e extended
  have steady : Steady r r.switches e := steady_after ranked quiet shared
  have backed : r.Backed q extended.state := backed_after ranked independent mostlyQuiet apart
  have same : extended.registry = r.append q := after_registry others _
  have covers := covers_holder ranked independent noOpening noClosing backed
  refine ⟨fun source program parsed => ?_, fun program n evaluated => ?_⟩
  · rw [steady.parse ranked] at parsed
    rw [parse, same]
    exact parse_covered (covers .parser) .refl parsed
  · rw [steady.evaluate ranked] at evaluated
    rw [evaluate, same]
    exact evaluate_covered (covers .evaluator) .refl evaluated

def ampersand : Provider := Table.provider ⟨['&', '+'], some '×', true,
  [('&', ⟨'&', .left, 1, 2⟩, .bitAnd), ('+', ⟨'+', .right, 9, 2⟩, .zero)]⟩

theorem independent_ampersand : crossFirst.Independent ampersand := by
  intro c d waits
  obtain ⟨p, listed, -, -, required⟩ := waits
  have either : p = cross ∨ p = .arithmetic := by simpa [crossFirst] using listed
  rcases either with rfl | rfl
  · cases required
    exact .inl (by decide)
  · cases required

theorem extension_conservative_ampersand :
    let program : Program := ⟨"2×3+1", [.operand (.integer 2), .operand (.integer 3),
      .operator ⟨'×', .left, 2, 2⟩, .operand (.integer 1), .operator ⟨'+', .left, 1, 2⟩]⟩
    let others := [.parse "6&3", .switch 2 false, .lookup '&', .parse "7+×", .switch 2 true]
    let extended := after others (start (crossFirst.append ampersand) true)
    crossFirst.Ranked (fun c => if c = '×' then 1 else 0) ∧ crossFirst.Independent ampersand ∧
      ampersand.claims '(' = false ∧ ampersand.claims ')' = false ∧
      (∀ place on, .switch place on ∈ others → crossFirst.providers.length ≤ place) ∧
      (extended.parse "2×3+1").1 = .ok program ∧
      (extended.evaluate program).1 = .ok (.integer 7) := by
  intro program others extended
  have quiet : ∀ place on, .switch place on ∉ ([] : List Action) := by simp
  have mostlyQuiet : ∀ place on, .switch place on ∈ others →
      crossFirst.providers.length ≤ place := by
    simp [others, crossFirst]
  have parsed : ((start crossFirst false).parse "2×3+1").1 = .ok program := by cbv
  have evaluated : ((start crossFirst false).evaluate program).1 = .ok (.integer 7) := by cbv
  obtain ⟨parses, evaluates⟩ := extension_conservative ranked_crossFirst independent_ampersand
    rfl rfl quiet mostlyQuiet false true
  exact ⟨ranked_crossFirst, independent_ampersand, rfl, rfl, mostlyQuiet, parses _ _ parsed,
    evaluates _ _ evaluated⟩

end ShuntingYard.Engine
