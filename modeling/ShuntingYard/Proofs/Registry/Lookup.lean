import ShuntingYard.Proofs.Course

namespace ShuntingYard

theorem Memo.answer?_remember (memo : Memo) (c : Char) (answer : Option Nat) (d : Char) :
    (memo.remember c answer).answer? d =
      if d = c then some ((memo.answer? c).getD answer) else memo.answer? d := by
  unfold remember
  cases known : memo.answer? c with
  | some old =>
    by_cases same : d = c
    · rw [if_pos same, same]
      exact known
    · rw [if_neg same]
  | none =>
    by_cases same : d = c
    · simp [same, answer?]
    · have differs : (d == c) = false := by simpa using same
      simp [same, answer?, List.lookup_cons, differs]

namespace Registry
variable {r : Registry} {s t : State} {client : Client} {c : Char}

theorem State.memoOf_remember (client : Client) (c : Char) (answer : Option Nat) (s : State) :
    (s.remember client c answer).memoOf client = (s.memoOf client).remember c answer := by
  cases client with
  | parser => rfl
  | evaluator => cases own : s.own <;> simp [remember, memoOf, own]

theorem State.memoOf_remember_other (client other : Client) (c : Char) (answer : Option Nat)
    (s : State) : (s.remember client c answer).memoOf other = s.memoOf other ∨
      (s.remember client c answer).memoOf other = (s.memoOf other).remember c answer := by
  cases client <;> cases other <;> cases own : s.own <;> simp [remember, memoOf, own]

theorem State.history_remember (client : Client) (c : Char) (answer : Option Nat) (s : State) :
    (s.remember client c answer).history = s.history := by
  unfold remember
  split <;> rfl

def State.Remembers (kind : Char → Option Nat → Prop) (s : State) : Prop :=
  ∀ client c answer, (s.memoOf client).answer? c = some answer → kind c answer

theorem State.Remembers.remember {kind : Char → Option Nat → Prop} (all : s.Remembers kind)
    (client : Client) (fits : kind c answer) : (s.remember client c answer).Remembers kind := by
  intro other d found known
  rcases State.memoOf_remember_other client other c answer s with same | grown
  · exact all other d found (same ▸ known)
  · rw [grown, Memo.answer?_remember] at known
    split at known
    · rename_i same
      subst same
      cases old : (s.memoOf other).answer? d with
      | some first =>
        rw [old] at known
        cases known
        exact all other d _ old
      | none =>
        rw [old] at known
        cases known
        exact fits
    · exact all other d found known

theorem lookupWithin_hit (known : (s.memoOf client).answer? c = some answer) :
    r.lookupWithin (depth + 1) client c s = (answer, s.note (.requested c)) := by
  have noted : ((s.note (.requested c)).memoOf client).answer? c = some answer := known
  unfold lookupWithin
  simp only [noted]

def settle (client : Client) (c : Char) (searched : Option Nat × State) : Option Nat × State :=
  let resolved := (searched.2.note (.resolved c searched.1.isSome)).remember client c searched.1
  (((resolved.memoOf client).answer? c).getD searched.1, resolved)

theorem settle_remembered (client : Client) (c : Char) (searched : Option Nat × State) :
    ((settle client c searched).2.memoOf client).answer? c =
      some (settle client c searched).1 := by
  simp only [settle, State.memoOf_remember, Memo.answer?_remember, if_pos, Option.getD_some]

theorem lookupWithin_miss (unknown : (s.memoOf client).answer? c = none) :
    r.lookupWithin (depth + 1) client c s =
      settle client c
        (search (r.lookupWithin depth .parser) c r.providers 0 (s.note (.requested c))) := by
  have noted : ((s.note (.requested c)).memoOf client).answer? c = none := unknown
  unfold lookupWithin
  simp only [noted, settle]

theorem lookupWithin_remembered (r : Registry) (depth : Nat) (client : Client) (c : Char)
    (s : State) : ((r.lookupWithin (depth + 1) client c s).2.memoOf client).answer? c =
      some (r.lookupWithin (depth + 1) client c s).1 := by
  cases known : (s.memoOf client).answer? c with
  | some answer =>
    rw [lookupWithin_hit known]
    exact known
  | none =>
    rw [lookupWithin_miss known]
    exact settle_remembered client c _

theorem lookup_remembered (r : Registry) (client : Client) (c : Char) (s : State) :
    ((r.lookup client c s).2.memoOf client).answer? c = some (r.lookup client c s).1 :=
  r.lookupWithin_remembered _ client c s

def Owner (r : Registry) (c : Char) (answer : Option Nat) : Prop :=
  ∀ place ∈ answer, ∃ p, r.providers[place]? = some p ∧ p.claims c

variable {inner : Char → State → Option Nat × State} {providers : List Provider}
  {holds : State → Prop}

theorem willing_claims (willed : (willing inner p place c s).1 = true) : p.claims c := by
  unfold willing at willed
  dsimp only at willed
  split at willed
  · rename_i asked
    simp only [Bool.and_eq_true] at asked
    exact asked.2
  · cases willed

theorem search_claims (found : (search inner c providers place s).1 = some answer) :
    place ≤ answer ∧ ∃ p, providers[answer - place]? = some p ∧ p.claims c := by
  induction providers generalizing place s with
  | nil => cases found
  | cons provider rest ih =>
    unfold search at found
    dsimp only at found
    split at found
    · rename_i willed
      cases Option.some.inj found
      exact ⟨Nat.le_refl _, provider, by simp, willing_claims willed⟩
    · obtain ⟨later, p, listed, claims⟩ := ih found
      have shifted : answer - place = answer - (place + 1) + 1 := by omega
      exact ⟨by omega, p, by rwa [shifted, List.getElem?_cons_succ], claims⟩

theorem search_owner (found : (search inner c r.providers 0 s).1 = answer) : r.Owner c answer := by
  intro place named
  cases named
  obtain ⟨-, p, listed, claims⟩ := search_claims found
  exact ⟨p, listed, claims⟩

theorem willing_keeps (noted : ∀ place s, holds s → holds (s.note (.asked place c)))
    (innerKeeps : ∀ d s, p.requires = some d → holds s → holds (inner d s).2) (place : Nat)
    (start : holds s) : holds (willing inner p place c s).2 := by
  have asked := noted place s start
  unfold willing
  dsimp only
  split
  · cases required : p.requires with
    | none => exact asked
    | some d => exact innerKeeps d _ required asked
  · exact asked

theorem search_keeps (providers : List Provider)
    (noted : ∀ place s, holds s → holds (s.note (.asked place c)))
    (innerKeeps : ∀ p ∈ providers, ∀ d s, p.requires = some d → holds s → holds (inner d s).2)
    (place : Nat) (start : holds s) : holds (search inner c providers place s).2 := by
  induction providers generalizing place s with
  | nil => exact start
  | cons provider rest ih =>
    obtain ⟨first, others⟩ := List.forall_mem_cons.mp innerKeeps
    have asked := willing_keeps noted first place start
    unfold search
    dsimp only
    split
    · exact asked
    · exact ih others _ asked

theorem lookupWithin_keeps (noted : ∀ event s, event.isLookup → holds s → holds (s.note event))
    (remembered : ∀ client c answer s, r.Owner c answer → holds s →
      holds (s.remember client c answer))
    (depth : Nat) (client : Client) (c : Char) (start : holds s) :
    holds (r.lookupWithin depth client c s).2 := by
  induction depth generalizing client c s with
  | zero => exact start
  | succ depth ih =>
    have requested := noted (.requested c) s rfl start
    cases known : (s.memoOf client).answer? c with
    | some answer =>
      rw [lookupWithin_hit known]
      exact requested
    | none =>
      have searched := search_keeps r.providers (fun place s => noted (.asked place c) s rfl)
        (fun _ _ d s _ begun => ih .parser d begun) 0 requested
      rw [lookupWithin_miss known]
      exact remembered client c _ _ (search_owner rfl) (noted _ _ rfl searched)

theorem kept_of_remembered (noted : ∀ event s, holds s → holds (s.note event))
    (remembered : ∀ client c answer s, r.Owner c answer → holds s →
      holds (s.remember client c answer)) : r.Kept holds where
  found client c _ start :=
    lookupWithin_keeps (fun event s _ => noted event s) remembered _ client c start
  noted := noted

def State.Shares (s : State) : Prop := s.own = none

theorem shares_kept (r : Registry) : r.Kept State.Shares := by
  refine kept_of_remembered (fun _ _ shares => shares) fun client c answer s _ shares => ?_
  unfold State.remember
  split
  · rename_i own
    exact absurd (shares.symm.trans own) (by simp)
  · exact shares

theorem State.Shares.memoOf (shares : s.Shares) (client other : Client) :
    s.memoOf client = s.memoOf other := by
  have same (client : Client) : s.memoOf client = s.memo := by
    cases client with
    | parser => rfl
    | evaluator => rw [State.memoOf, shares, Option.getD_none]
  rw [same, same]

theorem remembers_start (r : Registry) (shared : Bool) (kind : Char → Option Nat → Prop) :
    (r.start shared).Remembers kind := by
  intro client c answer known
  cases client <;> cases shared <;> cases known

theorem owned_kept (r : Registry) : r.Kept (State.Remembers r.Owner) :=
  kept_of_remembered (fun _ _ owned => owned)
    (fun client _ _ _ owner owned => owned.remember client owner)

theorem lookup_owner (owned : s.Remembers r.Owner) (client : Client) (c : Char) :
    r.Owner c (r.lookup client c s).1 :=
  (r.owned_kept.found client c s owned) client c _ (r.lookup_remembered client c s)

theorem gives_none (owned : s.Remembers r.Owner)
    (unclaimed : ∀ p ∈ r.providers, p.claims c = false) (client : Client) :
    (r.directory client).Gives s c none := by
  intro t path
  have owner := lookup_owner (r.owned_kept.reaches path owned) client c
  simp only [Directory.operator?, directory]
  cases found : (r.lookup client c t).1 with
  | none => rfl
  | some place =>
    obtain ⟨p, listed, claims⟩ := owner place found
    rw [unclaimed p (List.mem_of_getElem? listed)] at claims
    cases claims

end Registry

-- An engine as any use may have left it.
def Engine.Used (e : Engine) : Prop :=
  ∃ r shared actions, e = after actions (start r shared)

theorem Engine.Used.owned (used : Used e) : e.state.Remembers e.registry.Owner := by
  obtain ⟨r, shared, actions, rfl⟩ := used
  rw [after_registry]
  exact after_upheld r.owned_kept.upheld (fun _ _ _ _ owned => owned) (r.remembers_start shared _)

end ShuntingYard
