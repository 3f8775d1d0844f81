import ShuntingYard.Provider.Table
import ShuntingYard.Proofs.Registry.Asking
import ShuntingYard.Proofs.Registry.Descent

namespace ShuntingYard.Engine
variable {r : Registry} {rank : Char → Nat} {enabled : List Bool}

theorem looked_kept {holds : Registry.State → Prop} (calls : List Char) (e : Engine)
    (found : ∀ c s, holds s → holds (e.registry.lookup .parser c s).2) (start : holds e.state) :
    holds (after (calls.map .lookup) e).state := by
  induction calls generalizing e with
  | nil => exact start
  | cons c rest ih => exact ih (e.perform (.lookup c)).2 found (found c e.state start)

-- Requirements are looked up while other lookups are open, and which answers are remembered by then
-- depends on the order of the calls. What is answered does not.
theorem lookup_naive (ranked : r.Ranked rank) (shared : Bool) :
    let enabled := r.providers.map Provider.enabled
    r.Resolves enabled (r.owner enabled) ∧
    (∀ naive, r.Resolves enabled naive → naive = r.owner enabled) ∧
    ∀ calls : List Char, let s := (after (calls.map .lookup) (start r shared)).state
      (∀ c, (r.lookup .parser c s).1 = r.owner enabled c ∧
        ∀ found, r.Ends (.lookup .parser c) s found ↔ found = r.lookup .parser c s) ∧
      ∀ place d, s.history.count (.asked place d) ≤ 1 := by
  intro enabled
  have rule : r.Resolves enabled (r.owner enabled) := Registry.owner_eq ranked
  refine ⟨rule, fun naive also => also.unique ranked rule, fun calls => ?_⟩
  intro s
  refine ⟨fun c => ?_, ?_⟩
  · have faithful : r.Faithful enabled s :=
      looked_kept calls (start r shared)
        ((Registry.faithful_kept ranked enabled).found .parser) (r.faithful_start shared)
    have ends := Registry.lookup_ends ranked .parser c s
    exact ⟨Registry.lookup_owner_rule ranked faithful .parser c,
      fun found => ⟨fun also => also.unique ends, fun same => same ▸ ends⟩⟩
  · have unasked : (r.start shared).AskedOnce [] :=
      ⟨fun _ _ => Nat.zero_le 1, fun _ _ told => by cases told⟩
    have asked : s.AskedOnce [] :=
      looked_kept calls (start r shared)
        (fun c _ once => Registry.lookup_once ranked once c) unasked
    exact asked.once

def times : Provider := Table.provider ⟨['×'], some '*', true, []⟩

def timesFirst : Registry := ⟨[times, .arithmetic], by simp⟩

theorem timesFirst_ranked : timesFirst.Ranked fun c => if c = '×' then 1 else 0 := by
  intro p listed c claims d required
  have either : p = times ∨ p = .arithmetic := by simpa [timesFirst] using listed
  rcases either with rfl | rfl
  · cases required
    have only : c = '×' := by simpa [times, Table.provider] using claims
    rw [only]
    decide
  · cases required

theorem lookup_naive_reentrant :
    let r : Registry := ⟨[times, .arithmetic], by simp⟩
    r.Ranked (fun c => if c = '×' then 1 else 0) ∧
    let s := (after [.lookup '×', .lookup '*', .lookup '÷'] (start r true)).state
    (r.lookup .parser '×' s).1 = some 0 ∧ s.history.count (.asked 0 '*') = 1 ∧
      ∀ place d, s.history.count (.asked place d) ≤ 1 := by
  intro r
  have ranked : r.Ranked fun c => if c = '×' then 1 else 0 := timesFirst_ranked
  refine ⟨ranked, ?_⟩
  obtain ⟨-, -, looked⟩ := lookup_naive ranked true
  obtain ⟨answers, once⟩ := looked ['×', '*', '÷']
  exact ⟨(answers '×').1.trans (by decide), by decide, once⟩

end ShuntingYard.Engine
