import ShuntingYard.Proofs.Registry.Resolution

namespace ShuntingYard.Registry

-- No question has been put twice, and all were about symbols that the parser has an answer for by
-- now or that are still being searched for.
structure State.AskedOnce (pending : List Char) (s : State) : Prop where
  once : ∀ place d, s.history.count (.asked place d) ≤ 1
  known : ∀ place d, .asked place d ∈ s.history →
    d ∈ pending ∨ ∃ answer, s.memo.answer? d = some answer

def State.SilentAbove (rank : Char → Nat) (bound : Nat) (s t : State) : Prop :=
  ∀ place d, bound < rank d → .asked place d ∈ t.history → .asked place d ∈ s.history

variable {r : Registry} {s t u : State} {client : Client} {c d : Char} {place : Nat}
  {rank : Char → Nat} {inner : Char → State → Option Nat × State} {providers : List Provider}
  {pending : List Char}

namespace State.AskedOnce

theorem note (asked : s.AskedOnce pending) (other : ∀ place d, event ≠ .asked place d) :
    (s.note event).AskedOnce pending where
  once place d := by
    have same : (event :: s.history).count (.asked place d) = s.history.count (.asked place d) :=
      List.count_cons_of_ne (other place d)
    exact same.le.trans (asked.once place d)
  known place d told := by
    rcases List.mem_cons.mp told with same | earlier
    · exact absurd same.symm (other place d)
    · exact asked.known place d earlier

theorem begin (asked : s.AskedOnce pending) (c : Char) : s.AskedOnce (c :: pending) :=
  ⟨asked.once, fun place d told => (asked.known place d told).imp_left (List.mem_cons_of_mem c)⟩

theorem ask (asked : s.AskedOnce (c :: pending)) (new : .asked place c ∉ s.history) :
    (s.note (.asked place c)).AskedOnce (c :: pending) where
  once q d := by
    by_cases same : Event.asked place c = .asked q d
    · rw [← same]
      have none : s.history.count (.asked place c) = 0 := List.count_eq_zero.mpr new
      simp [State.note, none]
    · have unchanged : (Event.asked place c :: s.history).count (.asked q d) =
          s.history.count (.asked q d) := List.count_cons_of_ne same
      exact unchanged.le.trans (asked.once q d)
  known q d told := by
    rcases List.mem_cons.mp told with same | earlier
    · cases same
      exact .inl List.mem_cons_self
    · exact asked.known q d earlier

theorem settle {found : Option Nat × State} (asked : found.2.AskedOnce (c :: pending)) :
    (settle .parser c found).2.AskedOnce pending := by
  have noted : (found.2.note (.resolved c found.1.isSome)).AskedOnce (c :: pending) :=
    asked.note (by simp)
  refine ⟨noted.once, fun place d told => ?_⟩
  have answers (d : Char) : (Registry.settle .parser c found).2.memo.answer? d = _ :=
    Memo.answer?_remember found.2.memo c found.1 d
  rw [answers]
  by_cases same : d = c
  · exact .inr ⟨_, if_pos same⟩
  · rw [if_neg same]
    exact (noted.known place d told).imp_left fun waiting =>
      (List.mem_cons.mp waiting).resolve_left same

end State.AskedOnce

def AsksBelow (inner : Char → State → Option Nat × State) (rank : Char → Nat)
    (pending : List Char) (c : Char) (p : Provider) : Prop :=
  ∀ d s, p.claims c → p.requires = some d → s.AskedOnce (c :: pending) →
    (inner d s).2.AskedOnce (c :: pending) ∧ rank d < rank c ∧
      s.SilentAbove rank (rank d) (inner d s).2

theorem willing_once (asked : s.AskedOnce (c :: pending)) (new : .asked place c ∉ s.history)
    (below : AsksBelow inner rank pending c p) :
    (willing inner p place c s).2.AskedOnce (c :: pending) ∧
      ∀ q d, rank c ≤ rank d → .asked q d ∈ (willing inner p place c s).2.history →
        .asked q d ∈ (s.note (.asked place c)).history := by
  have put := asked.ask new
  unfold willing
  dsimp only
  split
  · rename_i fit
    cases required : p.requires with
    | none => exact ⟨put, fun _ _ _ told => told⟩
    | some d =>
      obtain ⟨once, lower, silent⟩ :=
        below d _ (Bool.and_eq_true_iff.mp fit).2 required put
      exact ⟨once, fun q e above => silent q e (lower.trans_le above)⟩
  · exact ⟨put, fun _ _ _ told => told⟩

theorem search_once (asked : s.AskedOnce (c :: pending))
    (new : ∀ q, .asked q c ∈ s.history → q < place)
    (below : ∀ p ∈ providers, AsksBelow inner rank pending c p) :
    (search inner c providers place s).2.AskedOnce (c :: pending) ∧
      s.SilentAbove rank (rank c) (search inner c providers place s).2 := by
  induction providers generalizing place s with
  | nil => exact ⟨asked, fun _ _ _ told => told⟩
  | cons p rest ih =>
    obtain ⟨first, others⟩ := List.forall_mem_cons.mp below
    obtain ⟨once, told⟩ :=
      willing_once asked (fun before => Nat.lt_irrefl place (new place before)) first
    have silent : s.SilentAbove rank (rank c) (willing inner p place c s).2 := by
      intro q d above now
      rcases List.mem_cons.mp (told q d above.le now) with same | earlier
      · cases same
        exact absurd above (Nat.lt_irrefl _)
      · exact earlier
    unfold search
    dsimp only
    split
    · exact ⟨once, silent⟩
    · have later : ∀ q, .asked q c ∈ (willing inner p place c s).2.history → q < place + 1 := by
        intro q now
        rcases List.mem_cons.mp (told q c le_rfl now) with same | earlier
        · cases same
          exact Nat.lt_succ_self place
        · exact Nat.lt_succ_of_lt (new q earlier)
      obtain ⟨still, onward⟩ := ih once later others
      exact ⟨still, fun q d above now => silent q d above (onward q d above now)⟩

theorem lookup_once (ranked : r.Ranked rank) (asked : s.AskedOnce []) (c : Char) :
    (r.lookup .parser c s).2.AskedOnce [] := by
  suffices more : ∀ client s, client = .parser → ∀ pending, (∀ d ∈ pending, rank c < rank d) →
      s.AskedOnce pending → (r.lookup client c s).2.AskedOnce pending ∧
        s.SilentAbove rank (rank c) (r.lookup client c s).2 from
    (more .parser s rfl [] (by simp) asked).1
  intro client s
  refine lookup_ranked ranked (motive := fun client c s found => client = .parser →
    ∀ pending, (∀ d ∈ pending, rank c < rank d) → s.AskedOnce pending →
      found.2.AskedOnce pending ∧ s.SilentAbove rank (rank c) found.2) ?_ ?_ client c s
  · intro client c s answer _ _ pending _ asked
    exact ⟨asked.note (by simp), fun place d _ told => by simpa [State.note] using told⟩
  · intro inner client c s unknown innerOnce parsing pending above asked
    subst parsing
    have unasked : ∀ q, .asked q c ∉ s.history := by
      intro q told
      rcases asked.known q c told with waiting | ⟨answer, known⟩
      · exact Nat.lt_irrefl _ (above c waiting)
      · cases known.symm.trans unknown
    have below : ∀ p ∈ r.providers, AsksBelow inner rank pending c p := by
      intro p member d t claims required begun
      have lower := ranked p member c claims d required
      have higher : ∀ e ∈ c :: pending, rank d < rank e :=
        List.forall_mem_cons.mpr ⟨lower, fun e waiting => lower.trans (above e waiting)⟩
      obtain ⟨once, silent⟩ := innerOnce p member d t claims required rfl _ higher begun
      exact ⟨once, lower, silent⟩
    have requested : (s.note (.requested c)).AskedOnce (c :: pending) :=
      (asked.note (by simp)).begin c
    have new : ∀ q, .asked q c ∈ (s.note (.requested c)).history → q < 0 := by
      intro q told
      exact absurd (by simpa [State.note] using told) (unasked q)
    obtain ⟨once, silent⟩ := search_once requested new below
    refine ⟨once.settle, fun q d above told => ?_⟩
    have searched : .asked q d ∈ (search inner c r.providers 0 (s.note (.requested c))).2.history := by
      simpa [settle, State.remember, State.note] using told
    simpa [State.note] using silent q d above searched

end ShuntingYard.Registry
