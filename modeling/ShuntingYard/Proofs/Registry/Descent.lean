import ShuntingYard.Proofs.Registry.Resolution

namespace ShuntingYard.Registry

inductive Query where
  | lookup (client : Client) (c : Char)
  | search (c : Char) (providers : List Provider) (place : Nat)

-- Lookups without a bound on how many of them are open at once. One that comes to an end is a
-- finite derivation; one that comes back to its own question while it is open has none.
inductive Ends (r : Registry) : Query → State → Option Nat × State → Prop where
  | hit (known : (s.memoOf client).answer? c = some answer) :
      Ends r (.lookup client c) s (answer, s.note (.requested c))
  | miss (unknown : (s.memoOf client).answer? c = none)
      (searched : Ends r (.search c r.providers 0) (s.note (.requested c)) found) :
      Ends r (.lookup client c) s (settle client c found)
  | exhausted : Ends r (.search c [] place) s (none, s)
  | declined (unfit : (s.isEnabled place && p.claims c) = false)
      (later : Ends r (.search c rest (place + 1)) (s.note (.asked place c)) found) :
      Ends r (.search c (p :: rest) place) s found
  | free (fit : (s.isEnabled place && p.claims c) = true) (unbound : p.requires = none) :
      Ends r (.search c (p :: rest) place) s (some place, s.note (.asked place c))
  | met (fit : (s.isEnabled place && p.claims c) = true) (required : p.requires = some d)
      (looked : Ends r (.lookup .parser d) (s.note (.asked place c)) (some holder, t)) :
      Ends r (.search c (p :: rest) place) s (some place, t)
  | unmet (fit : (s.isEnabled place && p.claims c) = true) (required : p.requires = some d)
      (looked : Ends r (.lookup .parser d) (s.note (.asked place c)) (none, t))
      (later : Ends r (.search c rest (place + 1)) t found) :
      Ends r (.search c (p :: rest) place) s found

variable {r : Registry} {s t u : State} {client : Client} {c d : Char} {place : Nat}
  {rank : Char → Nat} {inner : Char → State → Option Nat × State} {providers : List Provider}
  {pending : List Char}

theorem Ends.unique (one : Ends r query s found) (two : Ends r query s other) :
    found = other := by
  induction one generalizing other with
  | hit known =>
    cases two with
    | hit again =>
      cases known.symm.trans again
      rfl
    | miss unknown => cases known.symm.trans unknown
  | miss unknown _ ih =>
    cases two with
    | hit known => cases known.symm.trans unknown
    | miss _ again => rw [ih again]
  | exhausted =>
    cases two
    rfl
  | declined unfit _ ih =>
    cases two with
    | declined _ again => exact ih again
    | free fit => cases unfit.symm.trans fit
    | met fit => cases unfit.symm.trans fit
    | unmet fit => cases unfit.symm.trans fit
  | free fit unbound =>
    cases two with
    | declined unfit => cases unfit.symm.trans fit
    | free => rfl
    | met _ required => cases unbound.symm.trans required
    | unmet _ required => cases unbound.symm.trans required
  | met fit required _ ih =>
    cases two with
    | declined unfit => cases unfit.symm.trans fit
    | free _ unbound => cases unbound.symm.trans required
    | met _ also looked =>
      cases required.symm.trans also
      cases ih looked
      rfl
    | unmet _ also looked =>
      cases required.symm.trans also
      cases ih looked
  | unmet fit required _ _ ih next =>
    cases two with
    | declined unfit => cases unfit.symm.trans fit
    | free _ unbound => cases unbound.symm.trans required
    | met _ also looked =>
      cases required.symm.trans also
      cases ih looked
    | unmet _ also looked later =>
      cases required.symm.trans also
      cases ih looked
      exact next later

theorem not_ends (first : r.providers = p :: rest) (claims : p.claims c)
    (required : p.requires = some c) (on : s.isEnabled 0) (unknown : s.memo.answer? c = none)
    (found : Option Nat × State) : ¬ r.Ends (.lookup .parser c) s found := by
  suffices never : ∀ query s found, r.Ends query s found → s.isEnabled 0 →
      s.memo.answer? c = none → query ≠ .lookup .parser c ∧ query ≠ .search c (p :: rest) 0 from
    fun ends => (never _ s found ends on unknown).1 rfl
  intro query s found ends on unknown
  induction ends with
  | hit known =>
    refine ⟨?_, by simp⟩
    intro same
    cases same
    cases unknown.symm.trans known
  | miss _ _ ih =>
    refine ⟨?_, by simp⟩
    intro same
    cases same
    exact (ih on unknown).2 (by rw [first])
  | exhausted => simp
  | declined unfit =>
    refine ⟨by simp, ?_⟩
    intro same
    cases same
    simp [on, claims] at unfit
  | free _ unbound =>
    refine ⟨by simp, ?_⟩
    intro same
    cases same
    cases unbound.symm.trans required
  | met _ also _ ih =>
    refine ⟨by simp, ?_⟩
    intro same
    cases same
    cases also.symm.trans required
    exact (ih on unknown).1 rfl
  | unmet _ also _ _ ih =>
    refine ⟨by simp, ?_⟩
    intro same
    cases same
    cases also.symm.trans required
    exact (ih on unknown).1 rfl

theorem search_ends (innerEnds : ∀ p ∈ providers, ∀ d s, p.claims c → p.requires = some d →
      Ends r (.lookup .parser d) s (inner d s)) :
    Ends r (.search c providers place) s (search inner c providers place s) := by
  induction providers generalizing place s with
  | nil => exact .exhausted
  | cons p rest ih =>
    obtain ⟨first, others⟩ := List.forall_mem_cons.mp innerEnds
    have same : (s.note (.asked place c)).isEnabled place = s.isEnabled place := rfl
    unfold search willing
    dsimp only
    rw [same]
    cases fit : s.isEnabled place && p.claims c with
    | false => exact .declined fit (ih others)
    | true =>
      cases required : p.requires with
      | none => exact .free fit required
      | some d =>
        have claims : p.claims c := (Bool.and_eq_true_iff.mp fit).2
        have looked := first d (s.note (.asked place c)) claims required
        rcases answered : inner d (s.note (.asked place c)) with ⟨_ | holder, t⟩
        · rw [answered] at looked
          simpa [answered] using .unmet fit required looked (ih others)
        · rw [answered] at looked
          simpa [answered] using .met fit required looked

theorem lookup_ends (ranked : r.Ranked rank) (client : Client) (c : Char) (s : State) :
    Ends r (.lookup client c) s (r.lookup client c s) :=
  lookup_ranked ranked (motive := fun client c => Ends r (.lookup client c))
    (fun _ _ _ _ known => .hit known)
    (fun _ _ _ _ unknown innerEnds => .miss unknown (search_ends innerEnds)) client c s

end ShuntingYard.Registry
