import ShuntingYard.Yard

namespace ShuntingYard

def Emission.noticed? : Emission → Option Token
  | read n => some (.operand n)
  | overtaken op => some (.operator op)
  | closed _ => none
  | ended _ => none

-- Yielding is transitive, and it does not pass over what stands higher: an operator that yields
-- to one yields to all that would not have yielded to it.
theorem Operator.yieldsTo_trans {a b c : Operator} (first : a.yieldsTo b) (second : b.yieldsTo c) :
    a.yieldsTo c := by
  cases left : a.assoc <;> cases right : b.assoc <;>
    simp only [yieldsTo, left, right, decide_eq_true_eq] at first second ⊢ <;> omega

theorem Operator.yieldsTo_above {a b c : Operator} (yields : a.yieldsTo c)
    (above : ¬ b.yieldsTo c) : a.yieldsTo b := by
  cases left : a.assoc <;> cases right : b.assoc <;>
    simp only [yieldsTo, left, right, decide_eq_true_eq] at yields above ⊢ <;> omega

namespace Yard

def Rests (arriving : Operator) : List Held → Prop
  | .operator top :: _ => ¬ arriving.yieldsTo top
  | _ => True

theorem release_waiting (yields : ∀ op ∈ ops, arriving.yieldsTo op) (rests : Rests arriving below) :
    release arriving (ops.map .operator ++ below) = (ops, below) := by
  induction ops with
  | nil =>
    cases below with
    | nil => rfl
    | cons top below =>
      cases top with
      | opening => rfl
      | operator top =>
        have stays : ¬ arriving.yieldsTo top := rests
        simp [release, stays]
  | cons op ops ih =>
    obtain ⟨first, others⟩ := List.forall_mem_cons.mp yields
    simp [release, first, ih others]

theorem release_spec (arriving : Operator) (stack : List Held) :
    stack = (release arriving stack).1.map .operator ++ (release arriving stack).2 ∧
      (∀ op ∈ (release arriving stack).1, arriving.yieldsTo op) ∧
      Rests arriving (release arriving stack).2 := by
  fun_induction release arriving stack with
  | case1 => exact ⟨rfl, by simp, trivial⟩
  | case2 below => exact ⟨rfl, by simp, trivial⟩
  | case3 top below yields released ih =>
    obtain ⟨parts, all, rests⟩ := ih
    exact ⟨congrArg (.operator top :: ·) parts, List.forall_mem_cons.mpr ⟨yields, all⟩, rests⟩
  | case4 top below stays => exact ⟨rfl, by simp, stays⟩

theorem toOpening_waiting (ops : List Operator) (below : List Held) :
    toOpening? (ops.map .operator ++ .opening :: below) = some (ops, below) := by
  induction ops with
  | nil => rfl
  | cons op ops ih => simp [toOpening?, ih]

theorem toOpening_spec (found : toOpening? stack = some (ops, below)) :
    stack = ops.map .operator ++ .opening :: below := by
  fun_induction toOpening? stack generalizing ops with
  | case1 => cases found
  | case2 below => cases found; rfl
  | case3 top under ih =>
    obtain ⟨⟨released, kept⟩, inner, same⟩ := Option.map_eq_some_iff.mp found
    cases same
    exact congrArg (.operator top :: ·) (ih inner)

theorem drain_waiting (ops : List Operator) : drain? (ops.map .operator) = some ops := by
  induction ops with
  | nil => rfl
  | cons op ops ih => simp [drain?, ih]

theorem drain_spec (drained : drain? stack = some ops) : stack = ops.map .operator := by
  fun_induction drain? stack generalizing ops with
  | case1 => cases drained; rfl
  | case2 below => cases drained
  | case3 top below ih =>
    obtain ⟨others, inner, same⟩ := Option.map_eq_some_iff.mp drained
    cases same
    exact congrArg (.operator top :: ·) (ih inner)

theorem map_closed (ops : List Operator) :
    (ops.map Emission.closed).map Emission.token = ops.map .operator := by
  rw [List.map_map]
  rfl

theorem map_overtaken (ops : List Operator) :
    (ops.map Emission.overtaken).map Emission.token = ops.map .operator := by
  rw [List.map_map]
  rfl

theorem map_ended (ops : List Operator) :
    (ops.map Emission.ended).map Emission.token = ops.map .operator := by
  rw [List.map_map]
  rfl

theorem noticed_overtaken (ops : List Operator) :
    (ops.map Emission.overtaken).filterMap Emission.noticed? = ops.map .operator := by
  rw [List.filterMap_map]
  exact congrFun List.filterMap_eq_map ops

theorem noticed_closed (ops : List Operator) :
    (ops.map Emission.closed).filterMap Emission.noticed? = [] := by
  simp [Emission.noticed?]

theorem noticed_ended (ops : List Operator) :
    (ops.map Emission.ended).filterMap Emission.noticed? = [] := by
  simp [Emission.noticed?]

end Yard
end ShuntingYard
