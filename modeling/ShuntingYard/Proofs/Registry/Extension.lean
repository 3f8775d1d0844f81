import ShuntingYard.Proofs.Registry.Frozen
import ShuntingYard.Proofs.Registry.Resolution

namespace ShuntingYard.Registry

def append (r : Registry) (q : Provider) : Registry := ⟨r.providers ++ [q], by simp⟩

@[simp] theorem append_providers (r : Registry) (q : Provider) :
    (r.append q).providers = r.providers ++ [q] := rfl

def switches (r : Registry) : List Bool := r.providers.map Provider.enabled

-- What `q` has no say in when it is asked last: another provider owns the symbol, or `q` does not
-- claim it.
def Settled (r : Registry) (q : Provider) (c : Char) : Prop :=
  (r.owner r.switches c).isSome ∨ q.claims c = false

-- Whether the one symbol is claimed may hang on who owns the other.
def Waits (r : Registry) (c d : Char) : Prop :=
  ∃ p ∈ r.providers, p.enabled ∧ p.claims c ∧ p.requires = some d

-- What these providers answer is the same with `q` behind them and without it.
def Independent (r : Registry) (q : Provider) : Prop := ∀ c d, r.Waits c d → r.Settled q d

-- The providers of `r` are switched as at first, and of symbols that `q` has no say in nothing is
-- remembered that `r` alone would not answer.
structure Backed (r : Registry) (q : Provider) (s : State) : Prop where
  on : ∀ place < r.providers.length, s.isEnabled place = r.switches.getD place false
  right : s.Remembers fun c answer => r.Settled q c → answer = r.owner r.switches c

def State.Knows (s : State) (c : Char) : Prop := ∃ answer, s.memo.answer? c = some answer

structure Primed (r : Registry) (q : Provider) (c : Char) (s : State) : Prop extends
  r.Backed q s where
  knows : ∀ d, r.Waits c d → s.Knows d

variable {r : Registry} {q p : Provider} {s t : State} {client : Client} {c d : Char}
  {rank : Char → Nat} {inner : Char → State → Option Nat × State} {providers : List Provider}
  {entry : Provider × Nat} {place depth : Nat}

theorem entry_lt (listed : entry ∈ r.providers.zipIdx) : entry.2 < r.providers.length :=
  (List.getElem?_eq_some_iff.mp (List.mem_zipIdx_iff_getElem?.mp listed)).1

theorem entry_switch (listed : entry ∈ r.providers.zipIdx) :
    r.switches.getD entry.2 false = entry.1.enabled := by
  simp [switches, List.mem_zipIdx_iff_getElem?.mp listed]

theorem waits_of_entry (listed : entry ∈ r.providers.zipIdx) (on : entry.1.enabled)
    (claims : entry.1.claims c) (required : entry.1.requires = some d) : r.Waits c d :=
  ⟨entry.1, List.fst_mem_of_mem_zipIdx listed, on, claims, required⟩

theorem Waits.below_lt (ranked : r.Ranked rank) (waits : r.Waits c d) :
    r.below rank d < r.below rank c := by
  obtain ⟨p, member, -, claims, required⟩ := waits
  exact Registry.below_lt ranked member claims required

theorem owner_lt (ranked : r.Ranked rank) (owned : r.owner enabled c = some place) :
    place < r.providers.length := by
  rw [owner_eq ranked, claimant] at owned
  obtain ⟨entry, found, rfl⟩ := Option.map_eq_some_iff.mp owned
  exact entry_lt (List.mem_of_find?_eq_some found)

namespace Backed

theorem note (backed : r.Backed q s) (event : Event) : r.Backed q (s.note event) :=
  ⟨backed.on, backed.right⟩

theorem remember (backed : r.Backed q s) (client : Client)
    (fits : r.Settled q c → answer = r.owner r.switches c) :
    r.Backed q (s.remember client c answer) := by
  refine ⟨?_, backed.right.remember client fits⟩
  unfold State.remember
  split <;> exact backed.on

theorem switch (backed : r.Backed q s) (later : r.providers.length ≤ place) (on : Bool) :
    r.Backed q (s.switch place on) := by
  refine ⟨fun other prior => ?_, backed.right⟩
  have differs : place ≠ other := by omega
  simpa [State.switch, State.isEnabled, List.getElem?_set_ne differs] using backed.on other prior

end Backed

theorem Primed.note (primed : r.Primed q c s) (event : Event) : r.Primed q c (s.note event) :=
  ⟨primed.toBacked.note event, primed.knows⟩

theorem backed_start (r : Registry) (q : Provider) (shared : Bool) :
    r.Backed q ((r.append q).start shared) := by
  refine ⟨fun place prior => ?_, (r.append q).remembers_start shared _⟩
  simp [State.isEnabled, start, append, switches, List.getElem?_append_left, prior]

theorem State.Extends.knows (ext : s.Extends t) (known : s.Knows c) : t.Knows c := by
  obtain ⟨answer, known⟩ := known
  exact ⟨answer, (ext .parser).kept c answer known⟩

theorem lookupWithin_extends (r : Registry) (depth : Nat) (client : Client) (c : Char) (s : State) :
    s.Extends (r.lookupWithin depth client c s).2 :=
  lookupWithin_keeps (fun _ _ _ ext => ext)
    (fun client c answer t _ ext => ext.trans (t.extends_remember client c answer))
    depth client c (.refl s)

theorem search_append (one two : List Provider) :
    search inner c (one ++ two) place s =
      if (search inner c one place s).1.isSome then search inner c one place s
      else search inner c two (place + one.length) (search inner c one place s).2 := by
  induction one generalizing place s with
  | nil => simp [search]
  | cons p rest ih =>
    simp only [List.cons_append, search]
    split
    · rfl
    · rw [ih, List.length_cons, Nat.add_assoc, Nat.add_comm 1]

theorem search_settled (ranked : r.Ranked rank)
    (innerRight : ∀ d s, r.Waits c d → r.Backed q s →
      (inner d s).1 = r.owner r.switches d ∧ r.Backed q (inner d s).2)
    (settled : r.Settled q c) (backed : r.Backed q s) :
    (search inner c (r.append q).providers 0 s).1 = r.owner r.switches c ∧
      r.Backed q (search inner c (r.append q).providers 0 s).2 := by
  have prior : (search inner c r.providers 0 s).1 =
        r.claimant r.switches (r.owner r.switches) c ∧
      r.Backed q (search inner c r.providers 0 s).2 := by
    refine search_rule (fun place s held => held.note (.asked place c))
      (fun entry listed s held => held.on entry.2 (entry_lt listed)) ?_ backed
    intro entry listed on claims d s required
    rw [entry_switch listed] at on
    exact innerRight d s (waits_of_entry listed on claims required)
  rw [← owner_eq ranked] at prior
  obtain ⟨owned, searched⟩ := prior
  rw [append_providers, search_append, owned]
  cases mine : r.owner r.switches c with
  | some place => exact ⟨owned.trans mine, searched⟩
  | none =>
    have unclaimed : q.claims c = false := by simpa [Settled, mine] using settled
    simpa [search, willing, unclaimed] using searched.note _

theorem lookupWithin_settled (ranked : r.Ranked rank) (independent : r.Independent q)
    (deep : r.below rank c < depth) (settled : r.Settled q c) (backed : r.Backed q s) :
    ((r.append q).lookupWithin depth client c s).1 = r.owner r.switches c ∧
      r.Backed q ((r.append q).lookupWithin depth client c s).2 := by
  induction depth generalizing client c s with
  | zero => omega
  | succ depth ih =>
    cases known : (s.memoOf client).answer? c with
    | some answer =>
      rw [lookupWithin_hit known]
      exact ⟨backed.right client c answer known settled, backed.note _⟩
    | none =>
      have innerRight : ∀ d s, r.Waits c d → r.Backed q s →
          ((r.append q).lookupWithin depth .parser d s).1 = r.owner r.switches d ∧
            r.Backed q ((r.append q).lookupWithin depth .parser d s).2 := by
        intro d s waits held
        have lower := waits.below_lt ranked
        exact ih (by omega) (independent c d waits) held
      obtain ⟨found, searched⟩ :=
        search_settled ranked innerRight settled (backed.note (.requested c))
      rw [lookupWithin_miss known]
      have kept : r.Backed q (settle client c _).2 :=
        (searched.note _).remember client fun _ => found
      exact ⟨kept.right client c _ (settle_remembered client c _) settled, kept⟩

theorem willing_prior (listed : (p, place) ∈ r.providers.zipIdx)
    (innerKeeps : ∀ d, r.Waits c d → ∀ t, r.Backed q t → s.Extends t →
      r.Backed q (inner d t).2 ∧ t.Extends (inner d t).2 ∧ (inner d t).2.Knows d)
    (backed : r.Backed q t) (grown : s.Extends t) :
    let asked := willing inner p place c t
    r.Backed q asked.2 ∧ t.Extends asked.2 ∧
      (p.enabled → p.claims c → ∀ d, p.requires = some d → asked.2.Knows d) := by
  have isOn : (t.note (.asked place c)).isEnabled place = p.enabled :=
    (backed.on place (entry_lt listed)).trans (entry_switch listed)
  unfold willing
  dsimp only
  rw [isOn]
  split
  · rename_i fit
    obtain ⟨on, claims⟩ := Bool.and_eq_true_iff.mp fit
    cases required : p.requires with
    | none => exact ⟨backed.note _, .refl t, by simp⟩
    | some d =>
      have waits := waits_of_entry listed on claims required
      obtain ⟨kept, more, known⟩ :=
        innerKeeps d waits (t.note (.asked place c)) (backed.note _) grown
      refine ⟨kept, more, fun _ _ e same => ?_⟩
      cases same
      exact known
  · rename_i unfit
    exact ⟨backed.note _, .refl t, fun on claims => absurd (by simp [on, claims]) unfit⟩

theorem search_prior (listed : ∀ entry ∈ providers.zipIdx place, entry ∈ r.providers.zipIdx)
    (innerKeeps : ∀ d, r.Waits c d → ∀ t, r.Backed q t → s.Extends t →
      r.Backed q (inner d t).2 ∧ t.Extends (inner d t).2 ∧ (inner d t).2.Knows d)
    (backed : r.Backed q t) (grown : s.Extends t) :
    let found := search inner c providers place t
    r.Backed q found.2 ∧ t.Extends found.2 ∧ (found.1 = none →
      ∀ p ∈ providers, p.enabled → p.claims c → ∀ d, p.requires = some d → found.2.Knows d) := by
  induction providers generalizing place t with
  | nil => exact ⟨backed, .refl t, by simp⟩
  | cons p rest ih =>
    rw [List.zipIdx_cons] at listed
    obtain ⟨first, others⟩ := List.forall_mem_cons.mp listed
    obtain ⟨kept, more, known⟩ := willing_prior first innerKeeps backed grown
    unfold search
    dsimp only
    split
    · exact ⟨kept, more, by simp⟩
    · obtain ⟨still, onward, rests⟩ := ih others kept (grown.trans more)
      refine ⟨still, more.trans onward, fun missed => List.forall_mem_cons.mpr ⟨?_, rests missed⟩⟩
      exact fun on claims d required => onward.knows (known on claims d required)

theorem lookupWithin_waited (ranked : r.Ranked rank) (independent : r.Independent q)
    (waits : r.Waits c d) (reach : r.below rank d < depth ∨ t.Knows d) (backed : r.Backed q t) :
    let found := (r.append q).lookupWithin depth .parser d t
    r.Backed q found.2 ∧ t.Extends found.2 ∧ found.2.Knows d := by
  refine ⟨?_, lookupWithin_extends _ depth .parser d t, ?_⟩
  · rcases reach with deep | ⟨answer, known⟩
    · exact (lookupWithin_settled ranked independent deep (independent c d waits) backed).2
    · cases depth with
      | zero => exact backed
      | succ depth =>
        rw [lookupWithin_hit (show (t.memoOf .parser).answer? d = some answer from known)]
        exact backed.note _
  · cases depth with
    | zero => exact reach.resolve_left (Nat.not_lt_zero _)
    | succ depth => exact ⟨_, lookupWithin_remembered _ depth .parser d t⟩

theorem lookupWithin_open (ranked : r.Ranked rank) (independent : r.Independent q)
    (unsettled : ¬ r.Settled q c) (reach : ∀ d, r.Waits c d → r.below rank d < depth ∨ s.Knows d)
    (last : ∀ e t, q.requires = some e → r.Primed q c t →
      r.Backed q ((r.append q).lookupWithin depth .parser e t).2)
    (backed : r.Backed q s) :
    r.Backed q ((r.append q).lookupWithin (depth + 1) client c s).2 := by
  cases known : (s.memoOf client).answer? c with
  | some answer =>
    rw [lookupWithin_hit known]
    exact backed.note _
  | none =>
    have innerKeeps : ∀ d, r.Waits c d → ∀ t, r.Backed q t → (s.note (.requested c)).Extends t →
        let found := (r.append q).lookupWithin depth .parser d t
        r.Backed q found.2 ∧ t.Extends found.2 ∧ found.2.Knows d :=
      fun d waits t held ext =>
        lookupWithin_waited ranked independent waits ((reach d waits).imp_right ext.knows) held
    obtain ⟨kept, -, asked⟩ :=
      search_prior (fun _ listed => listed) innerKeeps (backed.note (.requested c)) (.refl _)
    rw [lookupWithin_miss known]
    refine Backed.remember (Backed.note ?_ _) client fun settled => absurd settled unsettled
    rw [append_providers, search_append]
    split
    · exact kept
    · rename_i missed
      have primed : r.Primed q c _ := ⟨kept, fun d ⟨p, member, on, claims, required⟩ =>
        asked (by simpa using missed) p member on claims d required⟩
      have lastKeeps : ∀ p ∈ [q], ∀ e t, p.requires = some e → r.Primed q c t →
          r.Primed q c ((r.append q).lookupWithin depth .parser e t).2 := by
        intro p only e t required held
        cases List.mem_singleton.mp only
        exact ⟨last e t required held, fun d waits =>
          (lookupWithin_extends _ depth .parser e t).knows (held.knows d waits)⟩
      exact (search_keeps [q] (fun place t held => held.note (.asked place c)) lastKeeps _
        primed).toBacked

-- Here `q` waits for itself until no lookup more may be opened. By then there is nothing left to
-- be learnt that could be wrong.
theorem lookupWithin_again (ranked : r.Ranked rank) (independent : r.Independent q)
    (unsettled : ¬ r.Settled q c) (required : q.requires = some c) (primed : r.Primed q c s) :
    r.Backed q ((r.append q).lookupWithin depth .parser c s).2 := by
  induction depth generalizing s with
  | zero => exact primed.toBacked
  | succ depth ih =>
    refine lookupWithin_open ranked independent unsettled (fun d waits => .inr (primed.knows d waits))
      (fun e t same held => ?_) primed.toBacked
    cases required.symm.trans same
    exact ih held

theorem lookup_backed (ranked : r.Ranked rank) (independent : r.Independent q) (client : Client)
    (c : Char) (backed : r.Backed q s) : r.Backed q ((r.append q).lookup client c s).2 := by
  have size : (r.append q).providers.length = r.providers.length + 1 := by simp
  have low (c : Char) : r.below rank c ≤ r.providers.length := r.below_le rank c
  rw [lookup, size]
  by_cases settled : r.Settled q c
  · exact (lookupWithin_settled ranked independent (by have := low c; omega) settled backed).2
  · refine lookupWithin_open ranked independent settled
      (fun d waits => .inl (by have := low c; have := waits.below_lt ranked; omega))
      (fun e t required primed => ?_) backed
    by_cases also : r.Settled q e
    · have deep : r.below rank e < r.providers.length + 1 := Nat.lt_succ_of_le (low e)
      exact (lookupWithin_settled ranked independent deep also primed.toBacked).2
    · refine lookupWithin_open ranked independent also
        (fun d waits => .inl ((waits.below_lt ranked).trans_le (low e)))
        (fun other u same primed => ?_) primed.toBacked
      cases required.symm.trans same
      exact lookupWithin_again ranked independent also required primed

theorem backed_kept (ranked : r.Ranked rank) (independent : r.Independent q) :
    (r.append q).Kept (r.Backed q) where
  found client c _ backed := lookup_backed ranked independent client c backed
  noted event _ backed := backed.note event

theorem finds_settled (ranked : r.Ranked rank) (independent : r.Independent q)
    (backed : r.Backed q s) (settled : r.Settled q c) (client : Client) :
    ((r.append q).directory client).Finds s c
      ((r.owner r.switches c).bind fun place => r.providers[place]?) := by
  intro t path
  have later : r.Backed q t := (backed_kept ranked independent).reaches path backed
  have deep : r.below rank c < (r.append q).providers.length + 1 := by
    have low := r.below_le rank c
    simp only [append_providers, List.length_append, List.length_singleton]
    omega
  obtain ⟨found, -⟩ := lookupWithin_settled ranked independent deep settled later
  have same : ((r.append q).lookup client c t).1 = r.owner r.switches c := found
  simp only [directory, same]
  cases owned : r.owner r.switches c with
  | none => rfl
  | some place => exact List.getElem?_append_left (owner_lt ranked owned)

end ShuntingYard.Registry
