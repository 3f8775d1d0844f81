import Mathlib
import ShuntingYard.Provider.Table
import ShuntingYard.Proofs.Engine.BuiltIn
import ShuntingYard.Proofs.Engine.Replay
import ShuntingYard.Proofs.Program.Progress
import ShuntingYard.Proofs.Yard.Cutting
import ShuntingYard.Proofs.Yard.Moment

namespace ShuntingYard

theorem Operator.replaceArguments_provided (op : Operator) (stack : List Token) (p : Provider)
    (c : Char) : op.replaceArguments stack (some p) ≠ .error (.noProvider c) := by
  unfold replaceArguments
  dsimp only
  split
  · simp
  · split <;> simp

namespace Registry
open Yard

-- What a provider creates bears the symbol that it was created for.
def Named (r : Registry) : Prop :=
  ∀ p ∈ r.providers, ∀ c op, p.create c = some op → op.symbol = c

-- In the course of a reading the provider at this place is found for a character and creates the
-- operator.
inductive Makes (r : Registry) (m : Moment State) (op : Operator) (place : Nat) : Prop where
  | intro (created : Creates (r.directory .parser) m c s op)
      (found : (r.lookup .parser c s).1 = some place) (owner : r.providers[place]? = some p)
      (made : p.create c = some op)

variable {r : Registry} {s t u : State} {m : Moment State} {client : Client} {c : Char}
  {op : Operator} {place : Nat} {source : String}

theorem made_of_created (created : Creates (r.directory .parser) m c s op) :
    ∃ place, r.Makes m op place := by
  obtain ⟨path, unread, noBlank, answer⟩ := created
  obtain ⟨p, found, made⟩ := Option.bind_eq_some_iff.mp answer
  obtain ⟨place, found, owner⟩ := Option.bind_eq_some_iff.mp found
  exact ⟨place, .intro (.intro path unread noBlank answer) found owner made⟩

theorem Makes.known (named : r.Named) (makes : r.Makes (.begin source s) op place) :
    (((r.directory .parser).parse source s).2.memoOf .parser).answer? op.symbol =
      some (some place) := by
  obtain ⟨⟨path, unread, noBlank, -⟩, found, owner, made⟩ := makes
  rw [named _ (List.mem_of_getElem? owner) _ _ made]
  rename_i c u p rest stack emitted
  have looked : (Piece.next (r.directory .parser) c rest u).state = (r.lookup .parser c u).2 := by
    rw [Piece.next_looked _ unread noBlank]
    rfl
  have onward := works_onward (r.directory .parser) c rest stack emitted u
  rw [← path.run, looked] at onward
  have grown : (r.lookup .parser c u).2.Extends _ :=
    (extends_kept r _).upheld.works (onward.trans (Directory.works_ended _ source s)) (.refl _)
  exact (grown .parser).kept c _ (found ▸ r.lookup_remembered .parser c u)

theorem lookup_known (known : (s.memoOf client).answer? c = some answer) (grown : s.Extends t) :
    (r.lookup client c t).1 = answer :=
  congrArg Prod.fst (lookupWithin_hit ((grown client).kept c answer known))

end Registry

namespace Engine
variable {r : Registry} {program : Program} {source : String}

def Makes (e : Engine) (source : String) (op : Operator) (place : Nat) : Prop :=
  e.registry.Makes (.begin source e.state) op place

-- Whoever made an operator will be found for it, though switched off meanwhile.
theorem dispatch_kept (named : r.Named) (before between : List Action)
    (accepted : ((after before (start r true)).parse source).1 = .ok program) :
    let e := after before (start r true)
    let later := after (.parse source :: between) e
    (∀ c other, (later.evaluate program).1 ≠ .error (.evaluation (.noProvider c) other)) ∧
    ∀ op, .operator op ∈ program.tokens → (∃ place, e.Makes source op place) ∧
      ∀ place, e.Makes source op place → ∀ stack t,
        (r.directory .evaluator).ComesTo program.tokens later.state op stack t →
          (r.lookup .evaluator op.symbol t).1 = some place := by
  intro e later
  have here : e.registry = r := after_registry before _
  have there : later.registry = r := (after_registry (.parse source :: between) e).trans here
  have makers : ∀ op, .operator op ∈ program.tokens → ∃ place, e.Makes source op place := by
    intro op listed
    have parsed : ((e.registry.directory .parser).parse source e.state).1 = .ok program := accepted
    obtain ⟨c, u, created⟩ := Directory.parse_created parsed listed
    exact Registry.made_of_created created
  have shares : later.state.Shares := by
    have shared : e.state.Shares :=
      after_upheld (e := start r true) r.shares_kept.upheld (fun _ _ _ _ shares => shares) rfl
    exact after_upheld e.registry.shares_kept.upheld (fun _ _ _ _ shares => shares) shared
  have dispatched : ∀ op place, e.Makes source op place → ∀ stack t,
      (r.directory .evaluator).ComesTo program.tokens later.state op stack t →
        (r.lookup .evaluator op.symbol t).1 = some place := by
    intro op place made stack t comes
    have parsed : (e.parse source).2.state.Extends later.state := by
      rw [← perform_parse_state]
      exact after_extends between _
    have known := (parsed .parser).kept op.symbol _ (made.known (here ▸ named))
    rw [shares.memoOf .parser .evaluator] at known
    exact Registry.lookup_known known ((r.extends_kept _).upheld.works comes.works (.refl _))
  refine ⟨fun c other failed => ?_, fun op listed => ⟨makers op listed, dispatched op⟩⟩
  have evaluated : (later.evaluate program).1 =
      ((r.directory .evaluator).evaluate program later.state).1 := by
    rw [evaluate, there]
  rcases Directory.evaluate_error (evaluated ▸ failed) with same | ⟨op, fault, same, comes, stuck⟩
  · cases same
  · cases same
    obtain ⟨place, made⟩ := makers op comes.listed
    have found := dispatched op place made _ _ comes
    obtain ⟨-, -, owner, -⟩ := made
    rw [here] at owner
    simp only [Registry.directory, found, Option.bind_some, owner] at stuck
    exact op.replaceArguments_provided _ _ c stuck

def zero : Provider := Table.provider ⟨['+'], none, true, [('+', ⟨'+', .left, 1, 2⟩, .zero)]⟩

def zeroFirst : Registry := ⟨[zero, .arithmetic], by simp⟩

theorem zeroFirst_named : zeroFirst.Named := by
  intro p listed c op made
  have either : p = zero ∨ p = .arithmetic := by simpa [zeroFirst] using listed
  rcases either with rfl | rfl
  · obtain ⟨entry, found, rfl⟩ := Option.map_eq_some_iff.mp made
    cases List.mem_singleton.mp (List.mem_of_find?_eq_some found)
    simpa using List.find?_some found
  · exact Arithmetic.symbol_eq made

theorem zeroFirst_makes : (start zeroFirst true).Makes "6+3" ⟨'+', .left, 1, 2⟩ 0 := by
  have six : Yard.shift [] (Piece.next (zeroFirst.directory .parser) '6' ['+', '3']
      (zeroFirst.start true)).piece = .ok ([.read (.integer 6)], []) := by
    decide
  exact .intro (.intro (.step .refl six) (by decide) (by decide) (by decide)) rfl rfl rfl

theorem dispatch_kept_switched :
    let program : Program := ⟨"6+3",
      [.operand (.integer 6), .operand (.integer 3), .operator ⟨'+', .left, 1, 2⟩]⟩
    let later := after [.parse "6+3", .switch 0 false] (start zeroFirst true)
    zeroFirst.Named ∧ ((start zeroFirst true).parse "6+3").1 = .ok program ∧
      (zeroFirst.lookup .evaluator '+' later.state).1 = some 0 ∧
      (zeroFirst.lookup .evaluator '+' ((zeroFirst.start true).switch 0 false)).1 = some 1 := by
  intro program later
  have accepted : ((start zeroFirst true).parse "6+3").1 = .ok program := by cbv
  obtain ⟨-, dispatched⟩ := dispatch_kept zeroFirst_named [] [.switch 0 false] accepted
  obtain ⟨-, found⟩ := dispatched ⟨'+', .left, 1, 2⟩ (by simp [program])
  have comes : (zeroFirst.directory .evaluator).ComesTo program.tokens later.state
      ⟨'+', .left, 1, 2⟩ [.operand (.integer 3), .operand (.integer 6)] later.state :=
    .intro (show program.tokens = [.operand (.integer 6), .operand (.integer 3)] ++ _ from rfl) rfl
  exact ⟨zeroFirst_named, accepted, found 0 zeroFirst_makes _ _ comes, by decide⟩

end Engine
end ShuntingYard
