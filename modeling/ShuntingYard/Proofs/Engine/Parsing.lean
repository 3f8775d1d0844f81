import Mathlib
import ShuntingYard.Engine
import ShuntingYard.Proofs.Registry.View
import ShuntingYard.Proofs.Yard.Balance
import ShuntingYard.Proofs.Yard.Cutting
import ShuntingYard.Proofs.Yard.Placement

namespace ShuntingYard.Engine
open Yard
variable {e : Engine} {source : String} {program : Program} {fault : ParseFault}
  {pieces : List Piece}

def lexed (e : Engine) (source : String) : List Token :=
  (Piece.cut (e.registry.directory .parser) source.toList e.state).1.filterMap Piece.token?

theorem parse_sorted (accepted : (e.parse source).1 = .ok program) :
    program = ⟨source, Yard.sorted (e.lexed source)⟩ := by
  have fed : (e.parse source).1 = _ :=
    Directory.parse_feed (e.registry.directory_unheard .parser) source e.state
  rw [accepted] at fed
  split at fed
  · rename_i sound
    rw [Except.ok.inj fed, Yard.feed_sorted sound]
    rfl
  · cases fed

theorem parse_sorted_senseless :
    (arithmetic.parse "+ 2!(3-4)").1 = .ok ⟨"+ 2!(3-4)", Yard.sorted (arithmetic.lexed "+ 2!(3-4)")⟩ ∧
      Yard.sorted (arithmetic.lexed "+ 2!(3-4)") =
        [.operand (.integer 2), .operand (.integer 3), .operand (.integer 4),
          .operator ⟨'-', .left, 1, 2⟩, .operator ⟨'!', .right, 3, 1⟩,
          .operator ⟨'+', .left, 1, 2⟩] := by
  have accepted : (arithmetic.parse "+ 2!(3-4)").1 = .ok ⟨"+ 2!(3-4)",
      [.operand (.integer 2), .operand (.integer 3), .operand (.integer 4),
        .operator ⟨'-', .left, 1, 2⟩, .operator ⟨'!', .right, 3, 1⟩,
        .operator ⟨'+', .left, 1, 2⟩]⟩ := by
    cbv
  have same := parse_sorted accepted
  exact ⟨same ▸ accepted, (congrArg Program.tokens same).symm⟩

def CutsInto (e : Engine) (source : String) (pieces : List Piece) : Prop :=
  ∃ t, Piece.Cuts (e.registry.directory .parser) source.toList e.state pieces t

def Refuses (e : Engine) (source : String) (fault : ParseFault) (words : String) : Prop :=
  (e.parse source).1 = .error (.parse fault source) ∧ fault.message = words

theorem CutsInto.same (cuts : e.CutsInto source pieces) :
    (e.registry.directory .parser).piecesOf source e.state = pieces := by
  obtain ⟨t, cuts⟩ := cuts
  exact congrArg Prod.fst cuts.eq_cut

theorem parse_refuses (cuts : e.CutsInto source pieces)
    (refused : (feed pieces []).fault = some fault) :
    (e.parse source).1 = .error (.parse fault source) :=
  Directory.parse_stopped (e.registry.directory_unheard .parser) (cuts.same ▸ refused)

theorem parse_accepts (cuts : e.CutsInto source pieces) :
    (∃ program, (e.parse source).1 = .ok program) ↔ (feed pieces []).fault = none := by
  have unheard := e.registry.directory_unheard .parser
  constructor
  · rintro ⟨program, accepted⟩
    have parsed : ((e.registry.directory .parser).parse source e.state).1 = .ok program := accepted
    exact cuts.same ▸ (Directory.fed_of_parsed unheard parsed).1
  · intro sound
    exact ⟨_, Directory.parse_fed unheard (cuts.same ▸ sound)⟩

theorem accepted_iff : (feed pieces []).fault = none ↔ firstStray? pieces = none ∧ Balanced pieces := by
  refine ⟨feed_balanced, fun ⟨clean, balanced⟩ => ?_⟩
  cases refused : (feed pieces []).fault with
  | none => rfl
  | some fault =>
    rcases feed_fault refused with ⟨c, strays, -, -⟩ | ⟨-, unbalanced, -⟩ | ⟨-, unbalanced, -⟩
    · rw [clean] at strays
      cases strays
    · exact absurd balanced unbalanced
    · exact absurd balanced unbalanced

-- The pieces decide, and there is one way only to cut a text. Of several faults it is the first one
-- that counts, where a parenthesis left open comes last.
theorem parse_verdict (e : Engine) (source : String) :
    ∃ pieces, e.CutsInto source pieces ∧ (∀ others, e.CutsInto source others → others = pieces) ∧
      ((∃ program, (e.parse source).1 = .ok program) ↔
        firstStray? pieces = none ∧ Balanced pieces) ∧
      (¬ (firstStray? pieces = none ∧ Balanced pieces) →
        (Overclosed pieces ∨ firstStray? pieces = none →
          e.Refuses source .unbalanced "mismatched parentheses") ∧
        ∀ c, ¬ Overclosed pieces → firstStray? pieces = some c →
          e.Refuses source (.stray c) s!"invalid character '{c}'") := by
  have cuts : e.CutsInto source _ := ⟨_, Piece.cut_cuts _ source.toList e.state⟩
  refine ⟨_, cuts, ?_, (parse_accepts cuts).trans accepted_iff, fun unacceptable => ?_⟩
  · rintro others ⟨u, also⟩
    exact (Piece.cut_cuts _ _ _).unique also
  obtain ⟨fault, refused⟩ := Option.ne_none_iff_exists'.mp (mt accepted_iff.mp unacceptable)
  have refusal := parse_refuses cuts refused
  rcases feed_fault refused with ⟨c, strays, inside, rfl⟩ | ⟨excess, -, rfl⟩ | ⟨clean, -, rfl⟩
  · refine ⟨?_, ?_⟩
    · rintro (excess | clean)
      · exact absurd excess inside
      · rw [clean] at strays
        cases strays
    · rintro d - first
      cases strays.symm.trans first
      exact ⟨refusal, rfl⟩
  · exact ⟨fun _ => ⟨refusal, rfl⟩, fun _ inside => absurd excess inside⟩
  · refine ⟨fun _ => ⟨refusal, rfl⟩, fun c _ first => ?_⟩
    rw [clean] at first
    cases first

end ShuntingYard.Engine
