import ShuntingYard.Proofs.Yard.Order
import ShuntingYard.Proofs.Yard.Passage

namespace ShuntingYard

namespace Yard
-- The operator waits when `k` tokens were read: the parentheses around it are still open then, and
-- nothing has released it.
structure Waits (tokens : List Token) (k : Nat) (level : Int) (i : Nat) (op : Operator) : Prop where
  here : tokens[i]? = some (.operator op)
  read : i < k
  onLevel : depth tokens i = level
  inside : ∀ m ≤ k, i ≤ m → level ≤ depth tokens m
  held : ∀ j < k, ¬ Releases tokens op i j

-- The stack with the places of its tokens. At every opening the level goes down by one, and within
-- a level nothing stands above what it yields to.
inductive Stands (tokens : List Token) (k : Nat) : Int → List (Nat × Held) → Prop where
  | bottom : Stands tokens k level []
  | operator {below : List (Nat × Held)} (waits : Waits tokens k level i op)
      (rests : Rests op (below.map Prod.snd)) (older : ∀ mark ∈ below, mark.1 < i) (later : Stands tokens k level below) :
      Stands tokens k level ((i, .operator op) :: below)
  | opening (later : Stands tokens k (level - 1) below) :
      Stands tokens k level ((i, .opening) :: below)

variable {tokens : List Token} {token : Token} {op arriving : Operator} {i k : Nat} {level : Int}
  {marks gone kept below : List (Nat × Held)}

theorem Waits.arrived (arrives : tokens[k]? = some (.operator op)) :
    Waits tokens (k + 1) (depth tokens (k + 1)) k op := by
  have same := depth_same arrives (by simp [Token.isParen])
  refine ⟨arrives, Nat.lt_succ_self k, same.symm, ?_, ?_⟩
  · intro m upTo later
    rcases Nat.le_succ_iff.mp upTo with before | rfl
    · rw [Nat.le_antisymm before later]
      exact Int.le_of_eq same
    · exact Int.le_refl _
  · intro j before released
    exact Nat.not_lt_of_le (Nat.le_of_lt_succ before) released.1

theorem Waits.onward (waits : Waits tokens k level i op) (deep : level ≤ depth tokens (k + 1))
    (unmoved : ¬ Releases tokens op i k) : Waits tokens (k + 1) level i op where
  here := waits.here
  read := Nat.lt_succ_of_lt waits.read
  onLevel := waits.onLevel
  inside m upTo later := by
    rcases Nat.le_succ_iff.mp upTo with before | rfl
    · exact waits.inside m before later
    · exact deep
  held j before := by
    rcases Nat.lt_succ_iff_lt_or_eq.mp before with earlier | rfl
    · exact waits.held j earlier
    · exact unmoved

theorem Waits.beside (waits : Waits tokens k level i op) (same : depth tokens k = level) :
    Beside tokens i k := by
  refine ⟨same.trans waits.onLevel.symm, ?_⟩
  rw [waits.onLevel]
  exact waits.inside

theorem Waits.released (waits : Waits tokens k level i op) (same : depth tokens k = level)
    (arrives : tokens[k]? = some token) (freed : frees op token) : leaving tokens i = k := by
  refine leaving_freed waits.here ⟨waits.read, waits.beside same, ?_⟩ waits.held
  rwa [arrives]

theorem Waits.overtaken (waits : Waits tokens k level i op) (same : depth tokens k = level)
    (arrives : tokens[k]? = some (.operator arriving)) (yields : arriving.yieldsTo op) :
    traces tokens i := by
  refine (traces_operator waits.here).mpr ⟨k, waits.read, waits.beside same, ?_⟩
  rwa [arrives]

theorem Waits.untraced (waits : Waits tokens k level i op)
    (never : ∀ j, k ≤ j → ¬ Overtakes tokens op i j) : traces tokens i = false := by
  rw [← Bool.not_eq_true, traces_operator waits.here]
  rintro ⟨j, overtaken⟩
  rcases Nat.lt_or_ge j k with before | after
  · exact waits.held j before overtaken.releases
  · exact never j after overtaken

theorem Waits.closed (waits : Waits tokens k level i op) (same : depth tokens k = level)
    (arrives : tokens[k]? = some (.paren .right)) : traces tokens i = false := by
  have shallower : depth tokens (k + 1) = depth tokens k - 1 := by
    rw [depth_succ arrives]
    simp
  refine waits.untraced fun j after overtaken => ?_
  obtain ⟨-, ⟨-, inside⟩, yields⟩ := overtaken
  rcases Nat.eq_or_lt_of_le after with rfl | later
  · simp [arrives, overtakes] at yields
  · have deep := inside (k + 1) later (Nat.le_succ_of_le (Nat.le_of_lt waits.read))
    have onLevel := waits.onLevel
    omega

theorem Stands.under (stands : Stands tokens k level marks) (lower : level < depth tokens k)
    (deep : level ≤ depth tokens (k + 1)) : Stands tokens (k + 1) level marks := by
  induction stands with
  | bottom => exact .bottom
  | operator waits rests older _ ih =>
    refine .operator (waits.onward deep ?_) rests older (ih lower deep)
    rintro ⟨-, ⟨same, -⟩, -⟩
    rw [same, waits.onLevel] at lower
    omega
  | opening _ ih => exact .opening (ih (by omega) (by omega))

theorem Stands.idle (stands : Stands tokens k level marks) (arrives : tokens[k]? = some token)
    (idle : ∀ op, frees op token = false) (deep : level ≤ depth tokens (k + 1)) :
    Stands tokens (k + 1) level marks := by
  induction stands with
  | bottom => exact .bottom
  | @operator _ _ op _ waits rests older _ ih =>
    refine .operator (waits.onward deep ?_) rests older (ih deep)
    rintro ⟨-, -, freed⟩
    simp [arrives, idle op] at freed
  | opening _ ih => exact .opening (ih (by omega))

theorem Stands.resting (stands : Stands tokens k level marks)
    (arrives : tokens[k]? = some (.operator arriving)) (rests : Rests arriving (marks.map Prod.snd))
    (same : depth tokens k = level) : Stands tokens (k + 1) level marks := by
  have deep : depth tokens (k + 1) = level := (depth_same arrives (by simp [Token.isParen])).trans same
  induction stands with
  | bottom => exact .bottom
  | @operator _ _ op below waits onBelow older _ ih =>
    have stays : ¬ arriving.yieldsTo op := rests
    have further : Rests arriving (below.map Prod.snd) := by
      cases below with
      | nil => trivial
      | cons next others =>
        obtain ⟨_, operator | _⟩ := next
        · exact fun yields => stays (Operator.yieldsTo_above yields onBelow)
        · trivial
    refine .operator (waits.onward (Int.le_of_eq deep.symm) ?_) onBelow older (ih further same deep)
    rintro ⟨-, -, freed⟩
    simp only [arrives, Option.any_some, frees] at freed
    exact stays freed
  | opening later _ => exact .opening (later.under (by omega) (by omega))

def held (ops : List (Nat × Operator)) : List (Nat × Held) :=
  ops.map fun mark => (mark.1, .operator mark.2)

theorem held_split (same : marks.map Prod.snd = ops.map .operator ++ stack) :
    ∃ gone kept, marks = held gone ++ kept ∧ gone.map Prod.snd = ops ∧ kept.map Prod.snd = stack := by
  induction ops generalizing marks with
  | nil => exact ⟨[], marks, rfl, rfl, same⟩
  | cons op ops ih =>
    cases marks with
    | nil => cases same
    | cons mark marks =>
      obtain ⟨first, others⟩ := List.cons.inj same
      obtain ⟨gone, kept, rfl, rfl, rfl⟩ := ih others
      obtain ⟨i, top⟩ := mark
      cases first
      exact ⟨(i, op) :: gone, kept, rfl, rfl, rfl⟩

theorem Stands.top {gone : List (Nat × Operator)}
    (stands : Stands tokens k level (held gone ++ kept)) :
    (∀ mark ∈ gone, Waits tokens k level mark.1 mark.2) ∧
      (gone.map Prod.fst).Pairwise (· > ·) ∧ Stands tokens k level kept := by
  induction gone with
  | nil => exact ⟨by simp, .nil, stands⟩
  | cons mark gone ih =>
    cases stands with
    | operator waits rests older later =>
      obtain ⟨waiting, backwards, stands⟩ := ih later
      refine ⟨List.forall_mem_cons.mpr ⟨waits, waiting⟩, List.pairwise_cons.mpr ⟨?_, backwards⟩, stands⟩
      intro j listed
      obtain ⟨other, inGone, rfl⟩ := List.mem_map.mp listed
      exact older _ (List.mem_append_left _ (List.mem_map.mpr ⟨other, inGone, rfl⟩))

theorem Stands.freed {gone : List (Nat × Operator)}
    (stands : Stands tokens k (depth tokens k) (held gone ++ kept)) (arrives : tokens[k]? = some token)
    (freed : ∀ mark ∈ gone, frees mark.2 token) : ∀ i ∈ gone.map Prod.fst, leaving tokens i = k := by
  intro i listed
  obtain ⟨mark, inGone, rfl⟩ := List.mem_map.mp listed
  exact (stands.top.1 mark inGone).released rfl arrives (freed mark inGone)

def places (marks : List (Nat × Held)) : List Nat :=
  marks.filterMap fun mark =>
    match mark.2 with
    | .operator _ => some mark.1
    | .opening => none

theorem places_held (gone : List (Nat × Operator)) (kept : List (Nat × Held)) :
    places (held gone ++ kept) = gone.map Prod.fst ++ places kept := by
  simp only [places, held, List.filterMap_append, List.filterMap_map]
  congr 1
  exact congrFun List.filterMap_eq_map gone

theorem tokens_at {gone : List (Nat × Operator)}
    (here : ∀ mark ∈ gone, tokens[mark.1]? = some (.operator mark.2)) :
    (gone.map Prod.fst).filterMap (tokens[·]?) = (gone.map Prod.snd).map .operator := by
  induction gone with
  | nil => rfl
  | cons mark gone ih =>
    obtain ⟨first, others⟩ := List.forall_mem_cons.mp here
    simp only [List.map_cons, List.filterMap_cons, first, ih others]

theorem traced_all {gone : List (Nat × Operator)}
    (here : ∀ mark ∈ gone, tokens[mark.1]? = some (.operator mark.2))
    (all : ∀ mark ∈ gone, traces tokens mark.1) :
    ((gone.map Prod.fst).filter (traces tokens)).filterMap (tokens[·]?) =
      (gone.map Prod.snd).map .operator := by
  have kept : (gone.map Prod.fst).filter (traces tokens) = gone.map Prod.fst :=
    List.filter_eq_self.mpr (List.forall_mem_map.mpr all)
  rw [kept, tokens_at here]

theorem traced_none {gone : List (Nat × Operator)}
    (none : ∀ mark ∈ gone, traces tokens mark.1 = false) :
    (gone.map Prod.fst).filter (traces tokens) = [] := by
  simpa using none

-- After `k` tokens: the places of those that left, in the order in which they did, and the stack.
structure Placed (tokens : List Token) (k : Nat) (order : List Nat) (marks : List (Nat × Held)) :
    Prop where
  stands : Stands tokens k (depth tokens k) marks
  recent : ∀ mark ∈ marks, mark.1 < k
  all : (order ++ places marks).Perm ((List.range k).filter (plain tokens))
  ordered : order.Pairwise fun i j => notAfter tokens i j
  left : ∀ i ∈ order, leaving tokens i < k

theorem ordered_append {order batch : List Nat}
    (ordered : order.Pairwise fun i j => notAfter tokens i j)
    (left : ∀ i ∈ order, leaving tokens i < k) (leave : ∀ i ∈ batch, leaving tokens i = k)
    (backwards : batch.Pairwise (· > ·)) :
    (order ++ batch).Pairwise fun i j => notAfter tokens i j := by
  refine List.pairwise_append.mpr ⟨ordered, backwards.imp_of_mem ?_, ?_⟩
  · intro i j first second later
    simp only [notAfter, leave i first, leave j second, decide_eq_true_eq]
    exact .inr ⟨trivial, Nat.le_of_lt later⟩
  · intro i before j after
    have earlier := left i before
    simp only [notAfter, leave j after, decide_eq_true_eq]
    omega

theorem left_append {order batch : List Nat} (left : ∀ i ∈ order, leaving tokens i < k)
    (leave : ∀ i ∈ batch, leaving tokens i = k) :
    ∀ i ∈ order ++ batch, leaving tokens i < k + 1 := by
  intro i listed
  rcases List.mem_append.mp listed with before | now
  · exact Nat.lt_succ_of_lt (left i before)
  · rw [leave i now]
    exact Nat.lt_succ_self k

theorem plain_succ (here : tokens[k]? = some token) :
    (List.range (k + 1)).filter (plain tokens) =
      (List.range k).filter (plain tokens) ++ if token.isParen then [] else [k] := by
  rw [List.range_succ, List.filter_append]
  congr 1
  cases paren : token.isParen <;> simp [plain, here, paren]

variable {order : List Nat}

theorem Placed.operand (placed : Placed tokens k order marks)
    (arrives : tokens[k]? = some (.operand n)) : Placed tokens (k + 1) (order ++ [k]) marks := by
  have same := depth_same arrives (by simp [Token.isParen])
  have leave : ∀ i ∈ [k], leaving tokens i = k := by
    intro i listed
    rw [List.mem_singleton.mp listed]
    exact leaving_operand arrives
  have stands := placed.stands.idle arrives (fun _ => rfl) (Int.le_of_eq same.symm)
  refine ⟨same ▸ stands, fun mark listed => Nat.lt_succ_of_lt (placed.recent mark listed), ?_,
    ordered_append placed.ordered placed.left leave (List.pairwise_singleton ..),
    left_append placed.left leave⟩
  rw [plain_succ arrives, List.append_assoc]
  exact List.perm_middle.trans ((placed.all.cons k).trans (List.perm_append_singleton ..).symm)

theorem Placed.opening (placed : Placed tokens k order marks)
    (arrives : tokens[k]? = some (.paren .left)) :
    Placed tokens (k + 1) order ((k, .opening) :: marks) := by
  have deeper : depth tokens (k + 1) - 1 = depth tokens k := by
    rw [depth_succ arrives]
    simp
  have stands := placed.stands.idle arrives (fun _ => rfl) (by omega)
  refine ⟨.opening (deeper ▸ stands), ?_, ?_, placed.ordered,
    fun i listed => Nat.lt_succ_of_lt (placed.left i listed)⟩
  · intro mark listed
    rcases List.mem_cons.mp listed with rfl | below
    · exact Nat.lt_succ_self k
    · exact Nat.lt_succ_of_lt (placed.recent mark below)
  · rw [plain_succ arrives, Token.isParen, if_pos rfl, List.append_nil]
    exact placed.all

theorem Placed.operator {gone : List (Nat × Operator)}
    (placed : Placed tokens k order (held gone ++ kept))
    (arrives : tokens[k]? = some (.operator arriving))
    (yields : ∀ mark ∈ gone, arriving.yieldsTo mark.2)
    (rests : Rests arriving (kept.map Prod.snd)) :
    Placed tokens (k + 1) (order ++ gone.map Prod.fst) ((k, .operator arriving) :: kept) := by
  have same := depth_same arrives (by simp [Token.isParen])
  obtain ⟨-, backwards, stands⟩ := placed.stands.top
  have leave := placed.stands.freed arrives yields
  have recent : ∀ mark ∈ kept, mark.1 < k :=
    fun mark listed => placed.recent mark (List.mem_append_right _ listed)
  refine ⟨.operator (.arrived arrives) rests recent (same ▸ stands.resting arrives rests rfl), ?_, ?_,
    ordered_append placed.ordered placed.left leave backwards, left_append placed.left leave⟩
  · intro mark listed
    rcases List.mem_cons.mp listed with rfl | below
    · exact Nat.lt_succ_self k
    · exact Nat.lt_succ_of_lt (recent mark below)
  · have all := placed.all
    rw [places_held] at all
    rw [plain_succ arrives]
    exact List.perm_middle.trans (((List.append_assoc .. ▸ all).cons k).trans
      (List.perm_append_singleton ..).symm)

theorem Placed.closing {gone : List (Nat × Operator)}
    (placed : Placed tokens k order (held gone ++ (i, .opening) :: kept))
    (arrives : tokens[k]? = some (.paren .right)) :
    Placed tokens (k + 1) (order ++ gone.map Prod.fst) kept := by
  have shallower : depth tokens (k + 1) = depth tokens k - 1 := by
    rw [depth_succ arrives]
    simp
  obtain ⟨-, backwards, stands⟩ := placed.stands.top
  have leave := placed.stands.freed arrives (fun _ _ => rfl)
  cases stands with
  | opening later =>
    refine ⟨?_, ?_, ?_, ordered_append placed.ordered placed.left leave backwards,
      left_append placed.left leave⟩
    · rw [shallower]
      exact later.under (by omega) (by omega)
    · intro mark listed
      exact Nat.lt_succ_of_lt
        (placed.recent mark (List.mem_append_right _ (List.mem_cons_of_mem _ listed)))
    · have all := placed.all
      rw [places_held] at all
      rw [plain_succ arrives, Token.isParen, if_pos rfl, List.append_nil, List.append_assoc]
      exact all

theorem Placed.shift (placed : Placed tokens k order marks) (arrives : tokens[k]? = some token)
    (cut : piece.token? = some token)
    (shifted : Yard.shift (marks.map Prod.snd) piece = .ok (released, next)) :
    ∃ batch later, Placed tokens (k + 1) (order ++ batch) later ∧ later.map Prod.snd = next ∧
      batch.filterMap (tokens[·]?) = released.map Emission.token ∧
      (batch.filter (traces tokens)).filterMap (tokens[·]?) =
        released.filterMap Emission.noticed? := by
  cases piece with
  | operand n =>
    cases cut
    cases shifted
    refine ⟨[k], marks, placed.operand arrives, rfl, by simp [arrives, Emission.token], ?_⟩
    simp [traces_operand arrives, arrives, Emission.noticed?]
  | operator op =>
    cases cut
    cases shifted
    obtain ⟨parts, yields, rests⟩ := release_spec op (marks.map Prod.snd)
    obtain ⟨gone, kept, rfl, ops, stack⟩ := held_split parts
    rw [← ops] at yields ⊢
    rw [← stack] at rests ⊢
    have waiting := placed.stands.top.1
    have here := fun mark inGone => (waiting mark inGone).here
    have yielding : ∀ mark ∈ gone, op.yieldsTo mark.2 :=
      fun mark inGone => yields _ (List.mem_map_of_mem inGone)
    have overtaken := fun mark inGone =>
      (waiting mark inGone).overtaken rfl arrives (yielding mark inGone)
    refine ⟨_, _, placed.operator arrives yielding rests, rfl, ?_, ?_⟩
    · rw [tokens_at here, map_overtaken]
    · rw [traced_all here overtaken, noticed_overtaken]
  | paren side =>
    cases cut
    cases side with
    | left =>
      cases shifted
      exact ⟨[], _, by rw [List.append_nil]; exact placed.opening arrives, rfl, rfl, rfl⟩
    | right =>
      cases found : toOpening? (marks.map Prod.snd) with
      | none => simp [Yard.shift, found] at shifted
      | some result =>
        obtain ⟨ops, below⟩ := result
        simp only [Yard.shift, found] at shifted
        cases shifted
        obtain ⟨gone, kept, rfl, rfl, stack⟩ := held_split (toOpening_spec found)
        obtain ⟨⟨i, _⟩, under, rfl, rfl, rfl⟩ := List.map_eq_cons_iff.mp stack
        have waiting := placed.stands.top.1
        have here := fun mark inGone => (waiting mark inGone).here
        have closed := fun mark inGone => (waiting mark inGone).closed rfl arrives
        refine ⟨_, under, placed.closing arrives, rfl, ?_, ?_⟩
        · rw [tokens_at here, map_closed]
        · rw [traced_none closed, noticed_closed, List.filterMap_nil]
  | blank => cases cut
  | stray c => cases cut

theorem Placed.passes (placed : Placed tokens k order marks)
    (passed : Passes pieces (marks.map Prod.snd) emitted last)
    (ahead : tokens.drop k = pieces.filterMap Piece.token?) :
    ∃ batch later, Placed tokens (k + (pieces.filterMap Piece.token?).length) (order ++ batch) later ∧
      later.map Prod.snd = last ∧ batch.filterMap (tokens[·]?) = emitted.map Emission.token ∧
      (batch.filter (traces tokens)).filterMap (tokens[·]?) =
        emitted.filterMap Emission.noticed? := by
  induction pieces generalizing k order marks emitted with
  | nil =>
    cases passed
    exact ⟨[], marks, by simpa using placed, rfl, rfl, rfl⟩
  | cons piece rest ih =>
    cases passed with
    | cons shifted further =>
      cases cut : piece.token? with
      | none =>
        rw [List.filterMap_cons_none cut] at ahead ⊢
        cases piece with
        | operand n => cases cut
        | operator op => cases cut
        | paren side => cases cut
        | blank =>
          cases shifted
          exact ih placed further ahead
        | stray c => cases shifted
      | some token =>
        rw [List.filterMap_cons_some cut] at ahead ⊢
        have arrives : tokens[k]? = some token := by
          rw [← List.head?_drop, ahead, List.head?_cons]
        have left : tokens.drop (k + 1) = rest.filterMap Piece.token? := by
          rw [← List.tail_drop, ahead, List.tail_cons]
        obtain ⟨batch, middle, moved, rfl, out, noticed⟩ := placed.shift arrives cut shifted
        obtain ⟨more, later, final, stack, others, alsoNoticed⟩ := ih moved further left
        refine ⟨batch ++ more, later, ?_, stack, ?_, ?_⟩
        · rw [List.length_cons, Nat.add_comm _ 1, ← Nat.add_assoc, ← List.append_assoc]
          exact final
        · rw [List.filterMap_append, out, others, List.map_append]
        · rw [List.filter_append, List.filterMap_append, noticed, alsoNoticed, List.filterMap_append]

theorem Placed.finish {gone : List (Nat × Operator)}
    (placed : Placed tokens tokens.length order (held gone)) :
    (order ++ gone.map Prod.fst).filterMap (tokens[·]?) = sorted tokens := by
  rw [← List.append_nil (held gone)] at placed
  obtain ⟨waiting, backwards, -⟩ := placed.stands.top
  have leave : ∀ i ∈ gone.map Prod.fst, leaving tokens i = tokens.length := by
    intro i listed
    obtain ⟨mark, inGone, rfl⟩ := List.mem_map.mp listed
    exact leaving_last (waiting mark inGone).here (waiting mark inGone).held
  have all := placed.all
  rw [places_held, places, List.filterMap_nil, List.append_nil] at all
  exact sorted_eq _ all (ordered_append placed.ordered placed.left leave backwards)

theorem feed_sorted (accepted : (feed pieces []).fault = none) :
    (feed pieces []).emitted.map Emission.token = sorted (pieces.filterMap Piece.token?) := by
  obtain ⟨emitted, last, final, passed, drained, output⟩ := feed_accepted accepted
  have start : Placed (pieces.filterMap Piece.token?) 0 [] [] :=
    ⟨.bottom, by simp, .nil, .nil, by simp⟩
  obtain ⟨order, marks, placed, stack, tokens, -⟩ := start.passes passed rfl
  rw [Nat.zero_add, List.nil_append] at placed
  rw [drain_spec drained, ← List.append_nil (final.map _)] at stack
  obtain ⟨gone, kept, rfl, rfl, bottom⟩ := held_split stack
  rw [List.map_eq_nil_iff.mp bottom] at placed
  have here := fun mark inGone => (placed.stands.top.1 mark inGone).here
  rw [List.append_nil] at placed
  rw [← placed.finish, List.filterMap_append, tokens, tokens_at here, output, List.map_append,
    map_ended]

end Yard
end ShuntingYard
