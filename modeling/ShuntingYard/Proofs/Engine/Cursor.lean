import Mathlib
import ShuntingYard.Proofs.Engine.Lookups
import ShuntingYard.Proofs.Scanner.Cursor

namespace ShuntingYard.Engine
open Scanner

theorem cursor_kept (e : Engine) (source : String) (before : List Request) :
    let directory := e.registry.directory .parser
    let text := source.toList
    let reached := (performAll directory before (ofString source) e.state).2
    let s := reached.1
    let t := reached.2
    (s.source = text.toArray ∧ s.position ≤ text.length) ∧
    (∀ n, s.perform directory (.moveTo n) t =
      if n ≤ text.length then (.flag true, { s with position := n }, t) else (.flag false, s, t)) ∧
    (∀ request, (∀ n, request ≠ .moveTo n) →
      let done := s.perform directory request t
      s.position ≤ done.2.1.position ∧
        (done.1.refuses → done.2.1.position =
          match request with
          | .nth _ => text.length
          | _ => s.position)) ∧
    (∀ request,
      let done := s.perform directory request t
      (done.2.1.perform directory (.textSince s.position) done.2.2).1 =
        .text ((text.take done.2.1.position).drop s.position)) ∧
    (∀ start, (s.perform directory (.view start) t).1 =
      .chars ((text.take s.position).drop (min start s.position))) ∧
    ∀ between,
      let back := (performAll directory (between ++ [.moveTo s.position]) s t).2
      back.1 = s ∧
        ∀ further, Returns e.registry (between ++ .moveTo s.position :: further) s t →
          (performAll directory further back.1 back.2).1 = (performAll directory further s t).1 := by
  intro directory text reached s t
  obtain ⟨same, within⟩ : s.source = text.toArray ∧ s.position ≤ text.length :=
    performAll_within directory before (Nat.zero_le _) e.state
  have size : s.source.size = text.length := by rw [same, List.size_toArray]
  rw [← size] at within
  have chars : s.source.toList = text := by rw [same]
  refine ⟨⟨same, size ▸ within⟩, fun n => ?_, fun request still => ?_, fun request => ?_,
    fun start => ?_, fun between => ?_⟩
  · simp only [Scanner.perform, moveTo_eq, size]
    split <;> rfl
  · obtain ⟨count, -, moved, refused⟩ := perform_goes directory still s t
    dsimp only
    rw [moved]
    refine ⟨Nat.le_add_right .., fun none => ?_⟩
    have stop := refused none
    cases request with
    | nth n =>
      have all : count = s.rest.length := stop
      simp only [onward]
      rw [all, length_rest, size]
      omega
    | _ =>
      have stayed : count = 0 := stop
      rw [stayed]
      rfl
  · obtain ⟨unchanged, -⟩ := perform_within directory request within t
    rw [chars.symm, ← unchanged]
    exact congrArg _ (view_drop ..)
  · simp only [Scanner.perform, view_eq, chars]
  · exact performAll_again within between

theorem cursor_kept_reentrant :
    let e := start timesFirst true
    let directory := e.registry.directory .parser
    let s := ofString "×*"
    let further : List Scanner.Request := [.readOperator, .next, .readOperator, .isDone]
    let between : List Scanner.Request := [.readOperator, .nth 0, .readOperator, .nth 7]
    let back := (performAll directory (between ++ [.moveTo s.position]) s e.state).2
    Returns timesFirst (between ++ .moveTo s.position :: further) s e.state ∧
      (performAll directory further back.1 back.2).1 =
        [(.operator none, 0), (.char (some '×'), 1), (.operator (some ⟨'*', .left, 2, 2⟩), 2),
          (.flag true, 2)] := by
  intro e directory s further between back
  have returns : Returns timesFirst (between ++ .moveTo s.position :: further) s e.state :=
    returns_ranked timesFirst_ranked _ _ _
  have first : (performAll directory further s e.state).1 =
      [(.operator none, 0), (.char (some '×'), 1), (.operator (some ⟨'*', .left, 2, 2⟩), 2),
        (.flag true, 2)] := by cbv
  obtain ⟨-, -, -, -, -, again⟩ := cursor_kept e "×*" []
  dsimp only [performAll] at again
  have answers := (again between).2 further returns
  -- Given a name, the run up to there is not computed again to compare the two.
  have same : (performAll (e.registry.directory .parser)
      (between ++ [.moveTo (ofString "×*").position]) (ofString "×*") e.state).2 = back := rfl
  rw [same] at answers
  exact ⟨returns, answers.trans first⟩

end ShuntingYard.Engine
