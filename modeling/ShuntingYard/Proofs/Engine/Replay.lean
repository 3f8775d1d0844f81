import ShuntingYard.Proofs.Registry.Frozen

namespace ShuntingYard

-- The same text is read again, in a state that knows every answer which was remembered by the end
-- of the first reading. What else differs between the two states is of no account, because a
-- provider creates the same operator for a symbol every time.
namespace Registry
variable {r : Registry} {s u : State} {client : Client} {c : Char}

theorem lookup_again (known : (r.lookup client c s).2.Extends u) :
    r.lookup client c u = ((r.lookup client c s).1, u.note (.requested c)) :=
  lookupWithin_hit ((known client).kept c _ (r.lookup_remembered client c s))

theorem operator_again (known : ((r.directory client).operator? c s).2.Extends u) :
    (r.directory client).operator? c u =
      (((r.directory client).operator? c s).1, u.note (.requested c)) := by
  have again : r.lookup client c u = _ := lookup_again known
  simp only [Directory.operator?, directory, again]

theorem next_again (rest : List Char)
    (known : (Piece.next (r.directory client) c rest s).state.Extends u) :
    (Piece.next (r.directory client) c rest u).piece =
        (Piece.next (r.directory client) c rest s).piece ∧
      (Piece.next (r.directory client) c rest u).rest =
        (Piece.next (r.directory client) c rest s).rest ∧
      u.Unsearched (Piece.next (r.directory client) c rest u).state := by
  unfold Piece.next at known ⊢
  cases read : Decimal.read? (c :: rest) with
  | some operand => exact ⟨rfl, rfl, .refl u⟩
  | none =>
    simp only [read] at known ⊢
    by_cases blank : isBlank c
    · rw [if_pos blank, if_pos blank]
      exact ⟨rfl, rfl, .refl u⟩
    · rw [if_neg blank] at known
      rw [if_neg blank, if_neg blank, operator_again known]
      exact ⟨rfl, rfl, .note _ rfl u⟩

theorem run_again (text : List Char) (stack : List Held) (emitted : List Emission)
    (known : (Yard.run (r.directory client) text stack emitted s).2.Extends u) :
    (Yard.run (r.directory client) text stack emitted u).1 =
        (Yard.run (r.directory client) text stack emitted s).1 ∧
      u.Unsearched (Yard.run (r.directory client) text stack emitted u).2 := by
  fun_induction Yard.run (r.directory client) text stack emitted s generalizing u with
  | case1 stack emitted s last finished =>
    rw [Yard.run, finished]
    exact ⟨rfl, .refl u⟩
  | case2 stack emitted s fault finished =>
    rw [Yard.run, finished]
    exact ⟨rfl, .refl u⟩
  | case3 stack emitted s c rest next =>
    rename_i shifted
    obtain ⟨piece, -, unsearched⟩ := next_again rest known
    rw [Yard.run, show _ = next.piece from piece, shifted]
    exact ⟨rfl, unsearched⟩
  | case4 stack emitted s c rest next released later =>
    rename_i shifted ih
    have plain := Directory.events_plain released
    have noted := record_unsearched r client _ plain next.state
    have ran : (r.directory client).Works _ _ :=
      Directory.works_run next.rest later (released.reverse ++ emitted)
        ((r.directory client).record (released.filterMap Emission.event?) next.state)
    -- What was known after this piece stayed known to the end of the first reading.
    have onward : next.state.Extends _ :=
      (extends_kept r next.state).upheld.works ran (noted.extends_iff.mp (.refl next.state))
    obtain ⟨piece, remainder, unsearched⟩ := next_again rest (onward.trans known)
    have told := unsearched.trans (record_unsearched r client _ plain _)
    obtain ⟨same, quiet⟩ := ih (told.extends_iff.mp known)
    rw [Yard.run, show _ = next.piece from piece, shifted, show _ = next.rest from remainder]
    exact ⟨same, told.trans quiet⟩

theorem parse_again (source : String)
    (known : ((r.directory client).parse source s).2.Extends u) :
    ((r.directory client).parse source u).1 = ((r.directory client).parse source s).1 ∧
      u.Unsearched ((r.directory client).parse source u).2 := by
  have ran : (Yard.run (r.directory client) source.toList [] [] s).2.Extends u := by
    unfold Directory.parse at known
    dsimp only at known
    split at known <;> exact known
  obtain ⟨same, unsearched⟩ := run_again source.toList [] [] ran
  unfold Directory.parse
  dsimp only
  rw [same]
  split
  · exact ⟨rfl, unsearched.trans (.note _ rfl _)⟩
  · exact ⟨rfl, unsearched⟩

end Registry

namespace Engine
variable {e : Engine}

theorem after_extends (actions : List Action) (e : Engine) :
    e.state.Extends (after actions e).state :=
  after_upheld (e.registry.extends_kept e.state).upheld (fun _ _ _ _ ext => ext) (.refl e.state)

theorem perform_parse_state (e : Engine) (source : String) :
    (e.perform (.parse source)).2.state = (e.parse source).2.state := by
  simp only [perform]
  split <;> rfl

theorem parse_again {later : Engine} (same : later.registry = e.registry)
    (known : (e.parse source).2.state.Extends later.state) :
    (later.parse source).1 = (e.parse source).1 ∧
      later.state.Unsearched (later.parse source).2.state := by
  unfold parse
  rw [same]
  exact Registry.parse_again source known

-- Any use at all may have gone before, and any may come between. Providers may be switched on and
-- off in it, but what a registry has answered once it will always answer, to lookups of any depth.
theorem resolution_frozen (r : Registry) (shared : Bool) (before between : List Action) :
    let e := after before (start r shared)
    let later := after between e
    later.registry = r ∧
    (∀ depth client c s, ((r.lookupWithin (depth + 1) client c s).2.memoOf client).answer? c =
      some (r.lookupWithin (depth + 1) client c s).1) ∧
    (∀ c, .requested c ∈ e.state.history →
      ∃ client answer, (e.state.memoOf client).answer? c = some answer) ∧
    (∀ client c answer, (e.state.memoOf client).answer? c = some answer →
      ∀ depth, r.lookupWithin (depth + 1) client c later.state =
        (answer, later.state.note (.requested c))) ∧
    (∀ client, (e.state.memoOf client).Extends (later.state.memoOf client) ∧
      e.remembered client ≤ later.remembered client) ∧
    ∀ source, let reread := after (.parse source :: between) e
      (reread.parse source).1 = (e.parse source).1 ∧
        reread.state.Unsearched (reread.parse source).2.state ∧
        (∀ place, (reread.parse source).2.questions place = reread.questions place) ∧
        ∀ client, (reread.parse source).2.remembered client = reread.remembered client := by
  intro e later
  have here : e.registry = r := after_registry before _
  have there : later.registry = r := (after_registry between e).trans here
  refine ⟨there, r.lookupWithin_remembered, ?_, ?_, ?_, ?_⟩
  · have none : (r.start shared).AnsweredBut [] := fun c requested => by cases requested
    have answered : e.state.AnsweredBut [] :=
      after_upheld (e := start r shared) r.answered_upheld (fun _ _ _ _ held => held) none
    exact fun c requested => (answered c requested).resolve_left (by simp)
  · intro client c answer known depth
    exact Registry.lookupWithin_hit ((after_extends between e client).kept c answer known)
  · intro client
    have grown := after_extends between e client
    exact ⟨grown, grown.suffix.length_le⟩
  · intro source reread
    have known : (e.parse source).2.state.Extends reread.state := by
      rw [← perform_parse_state]
      exact after_extends between _
    have same : reread.registry = e.registry := after_registry (.parse source :: between) e
    obtain ⟨again, unsearched⟩ := parse_again same known
    refine ⟨again, unsearched, unsearched.questions, fun client => ?_⟩
    exact congrArg List.length (Registry.State.memoOf_same unsearched.visible client)

end Engine
end ShuntingYard
