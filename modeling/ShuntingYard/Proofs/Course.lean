import ShuntingYard.Engine
import ShuntingYard.Proofs.Directory

namespace ShuntingYard

-- Reading and evaluating change a state by lookups and notes and in no other way.
namespace Directory
variable {directory : Directory σ}

-- As `Reaches`, but what is noted beside the lookups is about the expression only.
inductive Works (directory : Directory σ) (s : σ) : σ → Prop where
  | refl : Works directory s s
  | find (c : Char) : Works directory s t → Works directory s (directory.find c t).2
  | note (event : Event) (plain : event.isLookup = false) :
      Works directory s t → Works directory s (directory.note event t)

theorem Works.trans (one : Works directory s t) (two : Works directory t u) :
    Works directory s u := by
  induction two with
  | refl => exact one
  | find c _ ih => exact .find c ih
  | note event plain _ ih => exact .note event plain ih

theorem Works.preserves {holds : σ → Prop} (path : Works directory s t)
    (found : ∀ c u, holds u → holds (directory.find c u).2)
    (noted : ∀ event u, event.isLookup = false → holds u → holds (directory.note event u))
    (start : holds s) : holds t := by
  induction path with
  | refl => exact start
  | find c _ ih => exact found c _ ih
  | note event plain _ ih => exact noted event _ plain ih

theorem Works.reaches (path : Works directory s t) : Reaches directory s t := by
  induction path with
  | refl => exact .refl
  | find c _ ih => exact .find c ih
  | note event _ _ ih => exact .note event ih

theorem works_record (directory : Directory σ) (events : List Event)
    (plain : ∀ event ∈ events, event.isLookup = false) (s : σ) :
    Works directory s (directory.record events s) := by
  induction events generalizing s with
  | nil => exact .refl
  | cons event rest ih =>
    obtain ⟨first, others⟩ := List.forall_mem_cons.mp plain
    exact (Works.note event first .refl).trans (ih others _)

theorem events_plain (emissions : List Emission) :
    ∀ event ∈ emissions.filterMap Emission.event?, event.isLookup = false := by
  intro event noted
  obtain ⟨emission, -, told⟩ := List.mem_filterMap.mp noted
  cases emission <;> cases told <;> rfl

theorem works_next (directory : Directory σ) (c : Char) (rest : List Char) (s : σ) :
    Works directory s (Piece.next directory c rest s).state := by
  unfold Piece.next
  split
  · exact .refl
  · split
    · exact .refl
    · exact .find c .refl

theorem works_run (text : List Char) (stack : List Held) (emitted : List Emission) (s : σ) :
    Works directory s (Yard.run directory text stack emitted s).2 := by
  fun_induction Yard.run directory text stack emitted s with
  | case1 => exact .refl
  | case2 => exact .refl
  | case3 stack emitted s c rest => exact works_next directory c rest s
  | case4 stack emitted s c rest next released later shifted =>
    rename_i ih
    have told := works_record directory _ (events_plain released) next.state
    exact (works_next directory c rest s).trans (told.trans ih)

theorem works_parse (source : String) (s : σ) :
    Works directory s (directory.parse source s).2 := by
  have ran : Works directory s _ := works_run source.toList [] [] s
  unfold parse
  dsimp only
  split
  · exact .note _ rfl ran
  · exact ran

theorem works_reduce (tokens stack : List Token) (s : σ) :
    Works directory s (directory.reduce tokens stack s).2 := by
  fun_induction directory.reduce tokens stack s with
  | case1 => exact .refl
  | case2 op rest stack s found next =>
    rename_i ih
    exact (Works.find op.symbol .refl).trans ih
  | case3 op rest stack s => exact .find op.symbol .refl
  | case4 n rest stack s ih => exact ih
  | case5 side rest stack s ih => exact ih

theorem works_evaluate (program : Program) (s : σ) :
    Works directory s (directory.evaluate program s).2 := by
  have reduced : Works directory s _ := works_reduce program.tokens [] s
  unfold evaluate
  dsimp only
  split
  · exact .note _ rfl reduced
  · exact reduced
  · exact reduced

structure Asks (directory : Directory σ) (asked : σ → List Char) : Prop where
  found : ∀ c s, asked (directory.find c s).2 = asked s ++ [c]
  noted : ∀ event s, event.isLookup = false → asked (directory.note event s) = asked s

theorem Asks.recorded {asked : σ → List Char} (asks : directory.Asks asked) (events : List Event)
    (plain : ∀ event ∈ events, event.isLookup = false) (s : σ) :
    asked (directory.record events s) = asked s := by
  induction events generalizing s with
  | nil => rfl
  | cons event rest ih =>
    obtain ⟨first, others⟩ := List.forall_mem_cons.mp plain
    exact (ih others _).trans (asks.noted event s first)

end Directory

structure Registry.Kept (r : Registry) (holds : Registry.State → Prop) : Prop where
  found : ∀ client c s, holds s → holds (r.lookup client c s).2
  noted : ∀ event s, holds s → holds (s.note event)

theorem Registry.Kept.reaches (kept : Registry.Kept r holds)
    (path : (r.directory client).Reaches s t) (start : holds s) : holds t :=
  path.preserves (kept.found client) kept.noted start

-- What is noted in the course of a lookup may break it, if the lookup has it mended in the end.
structure Registry.Upheld (r : Registry) (holds : Registry.State → Prop) : Prop where
  found : ∀ client c s, holds s → holds (r.lookup client c s).2
  noted : ∀ event s, event.isLookup = false → holds s → holds (s.note event)

theorem Registry.Kept.upheld (kept : Registry.Kept r holds) : Registry.Upheld r holds :=
  ⟨kept.found, fun event s _ => kept.noted event s⟩

theorem Registry.Upheld.works (upheld : Registry.Upheld r holds)
    (path : (r.directory client).Works s t) (start : holds s) : holds t :=
  path.preserves (upheld.found client) upheld.noted start

namespace Engine
variable {e : Engine} {action : Action} {actions : List Action} {holds : Registry.State → Prop}

def after : List Action → Engine → Engine
  | [], e => e
  | action :: rest, e => after rest (e.perform action).2

theorem perform_registry (action : Action) (e : Engine) :
    (e.perform action).2.registry = e.registry := by
  cases action with
  | parse source =>
    simp only [perform]
    split <;> rfl
  | evaluate =>
    simp only [perform]
    split <;> rfl
  | run program => rfl
  | lookup symbol => rfl
  | create symbol => rfl
  | switch provider on => rfl
  | countProviders => rfl

theorem after_registry (actions : List Action) (e : Engine) :
    (after actions e).registry = e.registry := by
  induction actions generalizing e with
  | nil => rfl
  | cons action rest ih => exact (ih _).trans (perform_registry action e)

theorem parse_upheld (upheld : Registry.Upheld e.registry holds) (source : String)
    (start : holds e.state) : holds (e.parse source).2.state :=
  upheld.works (Directory.works_parse source e.state) start

theorem evaluate_upheld (upheld : Registry.Upheld e.registry holds) (program : Program)
    (start : holds e.state) : holds (e.evaluate program).2.state :=
  upheld.works (Directory.works_evaluate program e.state) start

theorem perform_upheld (upheld : Registry.Upheld e.registry holds)
    (switched : ∀ place on, action = .switch place on → ∀ s, holds s → holds (s.switch place on))
    (start : holds e.state) : holds (e.perform action).2.state := by
  cases action with
  | parse source =>
    have parsed := parse_upheld upheld source start
    simp only [perform]
    split <;> exact parsed
  | evaluate =>
    simp only [perform]
    split
    · exact evaluate_upheld upheld _ start
    · exact start
  | run program => exact evaluate_upheld upheld program start
  | lookup symbol => exact upheld.found _ symbol _ start
  | create symbol => exact upheld.found _ symbol _ start
  | switch provider on => exact switched provider on rfl _ start
  | countProviders => exact start

theorem after_upheld (upheld : Registry.Upheld e.registry holds)
    (switched : ∀ place on, .switch place on ∈ actions → ∀ s, holds s → holds (s.switch place on))
    (start : holds e.state) : holds (after actions e).state := by
  induction actions generalizing e with
  | nil => exact start
  | cons action rest ih =>
    have performed : holds (e.perform action).2.state :=
      perform_upheld upheld (fun place on same => switched place on (same ▸ List.mem_cons_self)) start
    refine ih ?_ (fun place on later => switched place on (List.mem_cons_of_mem _ later)) performed
    rwa [perform_registry]

end Engine
end ShuntingYard
