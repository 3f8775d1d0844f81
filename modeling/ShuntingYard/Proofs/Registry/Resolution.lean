import Mathlib.Data.List.Find
import ShuntingYard.Proofs.Registry.Lookup

namespace ShuntingYard.Registry
variable {r : Registry} {s t : State} {client : Client} {c : Char} {enabled : List Bool}
  {rank : Char → Nat}

-- The provider that owns a symbol, by a rule without memory: the first one that is on, claims the
-- symbol and has its requirement owned by some provider. `depth` bounds the requirements.
def ownerWithin (r : Registry) (enabled : List Bool) : Nat → Char → Option Nat
  | 0, _ => none
  | depth + 1, c =>
    (r.providers.zipIdx.find? fun entry =>
      enabled.getD entry.2 false && entry.1.claims c &&
        entry.1.requires.all fun d => (r.ownerWithin enabled depth d).isSome).map Prod.snd

-- Requirements lead downwards, so that no provider can come to wait for itself.
def Ranked (r : Registry) (rank : Char → Nat) : Prop :=
  ∀ p ∈ r.providers, ∀ c, p.claims c → ∀ d ∈ p.requires, rank d < rank c

def below (r : Registry) (rank : Char → Nat) (c : Char) : Nat :=
  r.providers.countP fun p => p.requires.any fun d => rank d < rank c

theorem below_le (r : Registry) (rank : Char → Nat) (c : Char) :
    r.below rank c ≤ r.providers.length := List.countP_le_length

theorem below_grows (member : p ∈ r.providers) (required : p.requires = some d)
    (down : rank d < rank c) : r.below rank d < r.below rank c := by
  have grows : ∀ q : Provider, (q.requires.any fun e => rank e < rank d) →
      q.requires.any fun e => rank e < rank c := by
    intro q lower
    cases needed : q.requires with
    | none => simp [needed] at lower
    | some e =>
      simp only [needed, Option.any_some, decide_eq_true_eq] at lower ⊢
      omega
  obtain ⟨front, back, split⟩ := List.append_of_mem member
  have before := List.countP_mono_left (l := front) fun q _ => grows q
  have behind := List.countP_mono_left (l := back) fun q _ => grows q
  simp only [below, split, List.countP_append, List.countP_cons, required, Option.any_some,
    Nat.lt_irrefl, decide_false, Bool.false_eq_true, if_false, down, decide_true, if_true]
  omega

theorem below_lt (ranked : r.Ranked rank) (member : p ∈ r.providers) (claims : p.claims c)
    (required : p.requires = some d) : r.below rank d < r.below rank c :=
  below_grows member required (ranked p member c claims d required)

def claimant (r : Registry) (enabled : List Bool) (owned : Char → Option Nat) (c : Char) :
    Option Nat :=
  (r.providers.zipIdx.find? fun entry =>
    enabled.getD entry.2 false && entry.1.claims c &&
      entry.1.requires.all fun d => (owned d).isSome).map Prod.snd

theorem claimant_congr {one two : Char → Option Nat}
    (same : ∀ p ∈ r.providers, ∀ d, p.claims c → p.requires = some d → one d = two d) :
    r.claimant enabled one c = r.claimant enabled two c := by
  unfold claimant
  congr 1
  refine List.find?_congr ?_
  rintro ⟨p, place⟩ listed
  have member : p ∈ r.providers := List.fst_mem_of_mem_zipIdx listed
  by_cases claims : p.claims c
  · cases required : p.requires with
    | none => rfl
    | some d => simp only [Option.all_some, same p member d claims required]
  · simp [claims]

theorem ownerWithin_stable (ranked : r.Ranked rank) (deep : r.below rank c < depth)
    (alsoDeep : r.below rank c < other) :
    r.ownerWithin enabled depth c = r.ownerWithin enabled other c := by
  induction depth generalizing other c with
  | zero => omega
  | succ depth ih =>
    cases other with
    | zero => omega
    | succ other =>
      refine claimant_congr fun p member d claims required => ?_
      have lower := below_lt ranked member claims required
      exact ih (by omega) (by omega)

-- As deep as a lookup can go, and never deeper than needed.
def owner (r : Registry) (enabled : List Bool) (c : Char) : Option Nat :=
  r.ownerWithin enabled (r.providers.length + 1) c

theorem owner_eq (ranked : r.Ranked rank) (c : Char) :
    r.owner enabled c = r.claimant enabled (r.owner enabled) c := by
  have deep : ∀ c, r.below rank c < r.providers.length + 1 :=
    fun c => Nat.lt_succ_of_le (r.below_le rank c)
  have deeper : r.owner enabled c = r.ownerWithin enabled (r.providers.length + 1 + 1) c :=
    ownerWithin_stable ranked (deep c) (Nat.lt_succ_of_lt (deep c))
  rw [deeper]
  rfl

-- The rule without memory, as an equation.
def Resolves (r : Registry) (enabled : List Bool) (naive : Char → Option Nat) : Prop :=
  ∀ c, naive c = r.claimant enabled naive c

theorem Resolves.unique {one two : Char → Option Nat} (ranked : r.Ranked rank)
    (first : r.Resolves enabled one) (second : r.Resolves enabled two) : one = two := by
  suffices same : ∀ bound c, rank c < bound → one c = two c from
    funext fun c => same _ c (Nat.lt_succ_self _)
  intro bound
  induction bound with
  | zero => simp
  | succ bound ih =>
    intro c low
    rw [first, second]
    refine claimant_congr fun p member d claims required => ih d ?_
    have lower := ranked p member c claims d required
    omega

-- These providers are on, and all that is remembered is what the rule says of them.
structure Faithful (r : Registry) (enabled : List Bool) (s : State) : Prop where
  on : s.enabled = enabled
  right : s.Remembers fun c answer => answer = r.owner enabled c

theorem faithful_start (r : Registry) (shared : Bool) :
    r.Faithful (r.providers.map Provider.enabled) (r.start shared) :=
  ⟨rfl, r.remembers_start shared _⟩

theorem Faithful.note (faithful : r.Faithful enabled s) (event : Event) :
    r.Faithful enabled (s.note event) := ⟨faithful.on, faithful.right⟩

theorem Faithful.remember (faithful : r.Faithful enabled s) (client : Client)
    (same : answer = r.owner enabled c) : r.Faithful enabled (s.remember client c answer) := by
  refine ⟨?_, faithful.right.remember client same⟩
  unfold State.remember
  split <;> exact faithful.on

variable {inner : Char → State → Option Nat × State} {providers : List Provider}
  {holds : State → Prop} {owned : Char → Option Nat}

theorem willing_rule (noted : ∀ place s, holds s → holds (s.note (.asked place c)))
    (isOn : ∀ s, holds s → s.isEnabled place = enabled.getD place false)
    (innerRight : enabled.getD place false → p.claims c → ∀ d s, p.requires = some d → holds s →
      (inner d s).1 = owned d ∧ holds (inner d s).2) (start : holds s) :
    (willing inner p place c s).1 = (enabled.getD place false && p.claims c &&
        p.requires.all fun d => (owned d).isSome) ∧
      holds (willing inner p place c s).2 := by
  have asked := noted place s start
  unfold willing
  dsimp only
  rw [isOn _ asked]
  split
  · rename_i ready
    rw [ready]
    simp only [Bool.and_eq_true] at ready
    cases required : p.requires with
    | none => exact ⟨rfl, asked⟩
    | some d =>
      obtain ⟨answer, kept⟩ := innerRight ready.1 ready.2 d _ required asked
      exact ⟨congrArg Option.isSome answer, kept⟩
  · rename_i unready
    rw [Bool.not_eq_true] at unready
    rw [unready]
    exact ⟨rfl, asked⟩

theorem search_rule (noted : ∀ place s, holds s → holds (s.note (.asked place c)))
    (isOn : ∀ entry ∈ providers.zipIdx place, ∀ s, holds s →
      s.isEnabled entry.2 = enabled.getD entry.2 false)
    (innerRight : ∀ entry ∈ providers.zipIdx place, enabled.getD entry.2 false →
      entry.1.claims c → ∀ d s, entry.1.requires = some d → holds s →
      (inner d s).1 = owned d ∧ holds (inner d s).2) (start : holds s) :
    (search inner c providers place s).1 = ((providers.zipIdx place).find? fun entry =>
        enabled.getD entry.2 false && entry.1.claims c &&
          entry.1.requires.all fun d => (owned d).isSome).map Prod.snd ∧
      holds (search inner c providers place s).2 := by
  induction providers generalizing place s with
  | nil => exact ⟨rfl, start⟩
  | cons p rest ih =>
    rw [List.zipIdx_cons] at isOn innerRight ⊢
    obtain ⟨onFirst, onOthers⟩ := List.forall_mem_cons.mp isOn
    obtain ⟨first, others⟩ := List.forall_mem_cons.mp innerRight
    obtain ⟨willed, asked⟩ := willing_rule noted onFirst first start
    unfold search
    dsimp only
    rw [willed, List.find?_cons]
    split
    · rename_i ready
      rw [ready]
      exact ⟨rfl, asked⟩
    · rename_i unready
      rw [Bool.not_eq_true] at unready
      rw [unready]
      exact ih onOthers others asked

-- The induction is on the depth; the rank tells that what is required needs less of it.
theorem lookup_ranked (ranked : r.Ranked rank)
    {motive : Client → Char → State → Option Nat × State → Prop}
    (hit : ∀ client c s answer, (s.memoOf client).answer? c = some answer →
      motive client c s (answer, s.note (.requested c)))
    (miss : ∀ (inner : Char → State → Option Nat × State) client c s,
      (s.memoOf client).answer? c = none →
      (∀ p ∈ r.providers, ∀ d s, p.claims c → p.requires = some d →
        motive .parser d s (inner d s)) →
      motive client c s
        (settle client c (search inner c r.providers 0 (s.note (.requested c)))))
    (client : Client) (c : Char) (s : State) : motive client c s (r.lookup client c s) := by
  suffices within : ∀ depth client c s, r.below rank c < depth →
      motive client c s (r.lookupWithin depth client c s) from
    within _ client c s (Nat.lt_succ_of_le (r.below_le rank c))
  intro depth
  induction depth with
  | zero => omega
  | succ depth ih =>
    intro client c s deep
    cases known : (s.memoOf client).answer? c with
    | some answer =>
      rw [lookupWithin_hit known]
      exact hit client c s answer known
    | none =>
      rw [lookupWithin_miss known]
      refine miss _ client c s known fun p member d s claims required => ?_
      have lower := below_lt ranked member claims required
      exact ih .parser d s (by omega)

theorem lookup_faithful (ranked : r.Ranked rank) (client : Client) (c : Char)
    (faithful : r.Faithful enabled s) : (r.lookup client c s).1 = r.owner enabled c ∧
      r.Faithful enabled (r.lookup client c s).2 := by
  refine lookup_ranked ranked (motive := fun _ c s found => r.Faithful enabled s →
      found.1 = r.owner enabled c ∧ r.Faithful enabled found.2) ?_ ?_ client c s faithful
  · exact fun client c s answer known faithful =>
      ⟨faithful.right client c answer known, faithful.note _⟩
  · intro inner client c s _ innerRight faithful
    have isOn place (s : State) (faithful : r.Faithful enabled s) :
        s.isEnabled place = enabled.getD place false := by
      rw [← faithful.on]
      rfl
    obtain ⟨first, searched⟩ := search_rule (fun place s held => held.note (.asked place c))
      (fun entry _ => isOn entry.2)
      (fun entry listed _ claims d s required held =>
        innerRight entry.1 (List.fst_mem_of_mem_zipIdx listed) d s claims required held)
      (faithful.note (.requested c))
    have found := first.trans (owner_eq ranked c).symm
    have settled : r.Faithful enabled (settle client c _).2 :=
      (searched.note _).remember client found
    exact ⟨settled.right client c _ (settle_remembered client c _), settled⟩

theorem faithful_kept (ranked : r.Ranked rank) (enabled : List Bool) :
    r.Kept (r.Faithful enabled) where
  found client c _ faithful :=
    (lookup_faithful ranked client c faithful).2
  noted event _ faithful := faithful.note event

theorem lookup_owner_rule (ranked : r.Ranked rank) (faithful : r.Faithful enabled s)
    (client : Client) (c : Char) : (r.lookup client c s).1 = r.owner enabled c :=
  (lookup_faithful ranked client c faithful).1

theorem finds_owner (ranked : r.Ranked rank) (faithful : r.Faithful enabled s) (client : Client)
    (c : Char) : (r.directory client).Finds s c
      ((r.owner enabled c).bind fun place => r.providers[place]?) := by
  intro t path
  have later := (faithful_kept ranked enabled).reaches path faithful
  simp only [directory, lookup_owner_rule ranked later client c]

def operatorOf (r : Registry) (enabled : List Bool) (c : Char) : Option Operator :=
  ((r.owner enabled c).bind fun place => r.providers[place]?).bind fun p => p.create c

theorem gives_operatorOf (ranked : r.Ranked rank) (faithful : r.Faithful enabled s)
    (client : Client) (c : Char) :
    (r.directory client).Gives s c (r.operatorOf enabled c) :=
  (finds_owner ranked faithful client c).gives

end ShuntingYard.Registry
