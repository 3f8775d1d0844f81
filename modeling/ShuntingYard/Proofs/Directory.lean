import ShuntingYard.Program.Evaluate
import ShuntingYard.Yard

namespace ShuntingYard.Directory

-- What lookups and notes, in any number and order, can make of a state.
inductive Reaches (directory : Directory σ) (s : σ) : σ → Prop where
  | refl : Reaches directory s s
  | find (c : Char) : Reaches directory s t → Reaches directory s (directory.find c t).2
  | note (event : Event) : Reaches directory s t → Reaches directory s (directory.note event t)

theorem Reaches.trans (one : Reaches directory s t) (two : Reaches directory t u) :
    Reaches directory s u := by
  induction two with
  | refl => exact one
  | find c _ ih => exact .find c ih
  | note event _ ih => exact .note event ih

theorem Reaches.preserves {holds : σ → Prop} (path : Reaches directory s t)
    (found : ∀ c u, holds u → holds (directory.find c u).2)
    (noted : ∀ event u, holds u → holds (directory.note event u)) (start : holds s) : holds t := by
  induction path with
  | refl => exact start
  | find c _ ih => exact found c _ ih
  | note event _ ih => exact noted event _ ih

theorem reaches_operator (directory : Directory σ) (c : Char) (s : σ) :
    Reaches directory s (directory.operator? c s).2 := .find c .refl

-- Whatever else is looked up before, the same provider is found for the symbol, or none.
def Finds (directory : Directory σ) (s : σ) (c : Char) (found : Option Provider) : Prop :=
  ∀ t, Reaches directory s t → (directory.find c t).1 = found

def Gives (directory : Directory σ) (s : σ) (c : Char) (answer : Option Operator) : Prop :=
  ∀ t, Reaches directory s t → (directory.operator? c t).1 = answer

theorem Finds.gives (finds : Finds directory s c found) :
    Gives directory s c (found.bind fun p => p.create c) := by
  intro t path
  rw [operator?, finds t path]

-- Nothing that is found depends on what has been noted: all lookups see of a state is its `view`,
-- and notes leave that alone.
structure Unheard (directory : Directory σ) (view : σ → τ) : Prop where
  found : view s = view t → (directory.find c s).1 = (directory.find c t).1
  moved : view s = view t → view (directory.find c s).2 = view (directory.find c t).2
  noted : view (directory.note event s) = view s

theorem Unheard.operator {view : σ → τ} (unheard : Unheard directory view) (c : Char)
    (same : view s = view t) :
    (directory.operator? c s).1 = (directory.operator? c t).1 ∧
      view (directory.operator? c s).2 = view (directory.operator? c t).2 :=
  ⟨by simp only [operator?, unheard.found same], unheard.moved same⟩

theorem Unheard.recorded {view : σ → τ} (unheard : Unheard directory view)
    (events : List Event) (s : σ) : view (directory.record events s) = view s := by
  induction events generalizing s with
  | nil => rfl
  | cons event rest ih => exact (ih _).trans unheard.noted

end ShuntingYard.Directory
