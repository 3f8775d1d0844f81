import Mathlib
import ShuntingYard.Provider.Table
import ShuntingYard.Proofs.Engine.Replay
import ShuntingYard.Proofs.Yard.Moment
import ShuntingYard.Proofs.Yard.Spacing

namespace ShuntingYard

inductive Alike (source other : String) : Except Error Program → Except Error Program → Prop where
  | accepted (tokens : List Token) : Alike source other (.ok ⟨source, tokens⟩) (.ok ⟨other, tokens⟩)
  | refused (fault : ParseFault) :
      Alike source other (.error (.parse fault source)) (.error (.parse fault other))

theorem Directory.parse_alike {directory : Directory σ} {view : σ → τ}
    (unheard : directory.Unheard view)
    (same : Piece.solid (directory.piecesOf source s) = Piece.solid (directory.piecesOf other s)) :
    Alike source other (directory.parse source s).1 (directory.parse other s).1 := by
  have fed : Yard.feed (directory.piecesOf source s) [] = Yard.feed (directory.piecesOf other s) [] := by
    rw [← Yard.feed_solid, same, Yard.feed_solid]
  cases ending : (Yard.feed (directory.piecesOf source s) []).fault with
  | none =>
    rw [parse_fed unheard ending, parse_fed unheard (fed ▸ ending), fed]
    exact .accepted _
  | some fault =>
    rw [parse_stopped unheard ending, parse_stopped unheard (fed ▸ ending)]
    exact .refused fault

namespace Engine
variable {source other : String}

theorem parse_once_more (e : Engine) (source : String) (between : List Action) :
    ((after (.parse source :: between) e).parse source).1 = (e.parse source).1 := by
  have known : (e.parse source).2.state.Extends (after (.parse source :: between) e).state := by
    rw [← perform_parse_state]
    exact after_extends between _
  exact (parse_again (after_registry (.parse source :: between) e) known).1

theorem parse_respaced (e : Engine) (spaced : Respaced source other) :
    (Alike source other (e.parse source).1 (e.parse other).1 ∧ ∀ between,
      Alike source other (e.parse source).1 ((after (.parse source :: between) e).parse other).1 ∧
      Alike source other ((after (.parse other :: between) e).parse source).1 (e.parse other).1) ∧
    (∀ c rest s, isBlank c → Piece.next (e.registry.directory .parser) c rest s = ⟨.blank, rest, s⟩) ∧
    ∀ text m op, Yard.Leads (e.registry.directory .parser) (.begin text e.state) m → m.Holds op →
      ∃ c ∈ text.toList, isBlank c = false ∧
        ∃ s, ((e.registry.directory .parser).operator? c s).1 = some op := by
  have alike (e : Engine) : Alike source other (e.parse source).1 (e.parse other).1 :=
    Directory.parse_alike (e.registry.directory_unheard .parser) (spaced.solid _ e.state)
  refine ⟨⟨alike e, fun between => ⟨?_, ?_⟩⟩, ?_, ?_⟩
  · rw [← parse_once_more e source between]
    exact alike _
  · rw [← parse_once_more e other between]
    exact alike _
  · exact fun c rest s blank =>
      Piece.next_blank _ (Decimal.read?_parted (blank_parted blank)) blank s
  · intro text m op path held
    obtain ⟨c, s, created⟩ := path.created held
    have written := created.from_text
    obtain ⟨-, -, noBlank, answer⟩ := created
    exact ⟨c, written, noBlank, s, answer⟩

def greedy : Provider :=
  Table.provider ⟨[' ', '9'], none, true,
    [(' ', ⟨' ', .left, 1, 2⟩, .zero), ('9', ⟨'9', .right, 1, 1⟩, .count)]⟩

def greedyFirst : Registry := ⟨[greedy, .arithmetic], by simp⟩

theorem parse_respaced_greedy :
    let e := start greedyFirst true
    let tokens := [.operand (.integer 1), .operand (.integer 999999999999999999),
      .operator ⟨'9', .right, 1, 1⟩]
    Respaced "1 9999999999999999999" "1\u2003\t9999999999999999999" ∧
      (e.parse "1 9999999999999999999").1 = .ok ⟨"1 9999999999999999999", tokens⟩ ∧
      (e.parse "1\u2003\t9999999999999999999").1 =
        .ok ⟨"1\u2003\t9999999999999999999", tokens⟩ := by
  intro e tokens
  have spaced : Respaced "1 9999999999999999999" "1\u2003\t9999999999999999999" :=
    .between (w := " ") (x := "\u2003\t") (by decide) (by decide)
      (by simp [Blanks, isBlank, blankRanges]) (by simp [Blanks, isBlank, blankRanges]) "1"
      "9999999999999999999"
  have accepted : (e.parse "1 9999999999999999999").1 = .ok ⟨"1 9999999999999999999", tokens⟩ := by
    cbv
  obtain ⟨⟨alike, -⟩, -⟩ := parse_respaced e spaced
  rw [accepted] at alike
  refine ⟨spaced, accepted, ?_⟩
  generalize (e.parse "1\u2003\t9999999999999999999").1 = answer at alike ⊢
  cases alike
  rfl

end Engine
end ShuntingYard
