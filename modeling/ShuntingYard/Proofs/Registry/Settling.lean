import Mathlib.Order.Lattice.Nat
import ShuntingYard.Proofs.Registry.Descent

-- Where lookups end, their answers do not depend on what was looked up before.
namespace ShuntingYard.Registry

-- The first provider to take the symbol, where `owned` tells of the symbols that are required. It
-- says nothing if it is not told of one that matters.
def firstWilling (s : State) (owned : Char → Option (Option Nat)) (c : Char) :
    List Provider → Nat → Option (Option Nat)
  | [], _ => some none
  | p :: rest, place =>
    if s.isEnabled place && p.claims c then
      match p.requires with
      | none => some (some place)
      | some d =>
        match owned d with
        | some (some _) => some (some place)
        | some none => firstWilling s owned c rest (place + 1)
        | none => none
    else firstWilling s owned c rest (place + 1)

-- The answer by what is remembered in this one state, and by the rule for all else. Requirements
-- may lead no deeper than `depth`.
def answerWithin (r : Registry) (s : State) : Nat → Char → Option (Option Nat)
  | 0, _ => none
  | depth + 1, c =>
    match s.memo.answer? c with
    | some answer => some answer
    | none => firstWilling s (r.answerWithin s depth) c r.providers 0

def Answers (r : Registry) (s : State) (c : Char) (answer : Option Nat) : Prop :=
  ∃ depth, r.answerWithin s depth c = some answer

noncomputable def depthOf (r : Registry) (s : State) (c : Char) : Nat :=
  sInf {depth | ∃ answer, r.answerWithin s depth c = some answer}

-- A later state: nothing is forgotten, and nothing was learned but what had to be answered.
structure Follows (r : Registry) (s t : State) : Prop where
  on : t.enabled = s.enabled
  kept : ∀ c answer, s.memo.answer? c = some answer → t.memo.answer? c = some answer
  right : ∀ c answer, t.memo.answer? c = some answer → r.Answers s c answer

def Told (r : Registry) (s : State) : Query → Option Nat × State → Prop
  | .lookup .parser c, found => r.Answers s c found.1 ∧ r.Follows s found.2
  | .lookup .evaluator _, _ => True
  | .search c providers place, found =>
    (∃ depth, firstWilling s (r.answerWithin s depth) c providers place = some found.1) ∧
      r.Follows s found.2

variable {r : Registry} {s t u : State} {c d : Char} {place m n : Nat} {answer other : Option Nat}
  {owned again : Char → Option (Option Nat)} {providers : List Provider}
  {found : Option Nat × State} {inner : Char → State → Option Nat × State}

theorem firstWilling_mono (more : ∀ d answer, owned d = some answer → again d = some answer)
    (first : firstWilling s owned c providers place = some answer) :
    firstWilling s again c providers place = some answer := by
  induction providers generalizing place with
  | nil => exact first
  | cons p rest ih =>
    simp only [firstWilling] at first ⊢
    split
    · rename_i fit
      rw [if_pos fit] at first
      cases required : p.requires with
      | none => simpa only [required] using first
      | some d =>
        rw [required] at first
        dsimp only at first ⊢
        cases known : owned d with
        | none => simp [known] at first
        | some holder =>
          rw [known] at first
          rw [more d holder known]
          cases holder with
          | none => exact ih first
          | some _ => exact first
    · rename_i unfit
      rw [if_neg unfit] at first
      exact ih first

theorem answerWithin_le (deeper : m ≤ n) (one : r.answerWithin s m c = some answer) :
    r.answerWithin s n c = some answer := by
  induction m generalizing n c answer with
  | zero => cases one
  | succ m ih =>
    cases n with
    | zero => cases deeper
    | succ n =>
      simp only [answerWithin] at one ⊢
      cases known : s.memo.answer? c with
      | some first => simpa only [known] using one
      | none =>
        rw [known] at one
        exact firstWilling_mono (fun _ _ => ih (Nat.le_of_succ_le_succ deeper)) one

theorem Answers.unique (one : r.Answers s c answer) (two : r.Answers s c other) :
    answer = other := by
  obtain ⟨m, first⟩ := one
  obtain ⟨n, second⟩ := two
  have same := (answerWithin_le (Nat.le_max_left m n) first).symm.trans
    (answerWithin_le (Nat.le_max_right m n) second)
  exact Option.some.inj same

theorem depthOf_le (known : r.answerWithin s n c = some answer) : r.depthOf s c ≤ n :=
  Nat.sInf_le ⟨answer, known⟩

theorem Answers.within (answers : r.Answers s c answer) :
    r.answerWithin s (r.depthOf s c) c = some answer := by
  obtain ⟨depth, known⟩ := answers
  obtain ⟨first, least⟩ : ∃ first, r.answerWithin s (r.depthOf s c) c = some first :=
    Nat.sInf_mem (s := {depth | ∃ answer, r.answerWithin s depth c = some answer})
      ⟨depth, answer, known⟩
  rw [least, Answers.unique ⟨_, least⟩ ⟨depth, known⟩]

namespace Follows

theorem refl (r : Registry) (s : State) : r.Follows s s where
  on := rfl
  kept _ _ known := known
  right c answer known := ⟨1, by simp only [answerWithin, known]⟩

theorem note (follows : r.Follows s t) (event : Event) : r.Follows s (t.note event) :=
  ⟨follows.on, follows.kept, follows.right⟩

theorem isEnabled (follows : r.Follows s t) (place : Nat) : t.isEnabled place = s.isEnabled place :=
  congrArg (fun on => on.getD place false) follows.on

theorem unknown (follows : r.Follows s t) (unanswered : t.memo.answer? c = none) :
    s.memo.answer? c = none := by
  cases known : s.memo.answer? c with
  | none => rfl
  | some answer => exact absurd (unanswered.symm.trans (follows.kept c answer known)) (by simp)

theorem settle (follows : r.Follows s found.2) (answers : r.Answers s c found.1) :
    r.Answers s c (settle .parser c found).1 ∧ r.Follows s (settle .parser c found).2 := by
  have grown (d : Char) : (Registry.settle .parser c found).2.memo.answer? d = _ :=
    Memo.answer?_remember found.2.memo c found.1 d
  have later : r.Follows s (Registry.settle .parser c found).2 := by
    refine ⟨follows.on, fun d answer known => ?_, fun d answer known => ?_⟩
    · have before := follows.kept d answer known
      rw [grown]
      split
      · rename_i same
        rw [← same, before]
        rfl
      · exact before
    · rw [grown] at known
      split at known
      · rename_i same
        subst same
        cases before : found.2.memo.answer? d with
        | some old =>
          rw [before] at known
          cases known
          exact follows.right d _ before
        | none =>
          rw [before] at known
          cases known
          exact answers
      · exact follows.right d answer known
  exact ⟨later.right c _ (settle_remembered .parser c found), later⟩

end Follows

-- The induction is on the derivation, so that nothing need be known of the requirements.
theorem Ends.told (ends : r.Ends query t found) (follows : r.Follows s t) :
    r.Told s query found := by
  induction ends with
  | @hit answer client c t known =>
    cases client with
    | parser => exact ⟨follows.right c answer known, follows.note _⟩
    | evaluator => trivial
  | @miss c found client t unknown _ ih =>
    cases client with
    | parser =>
      obtain ⟨⟨depth, searched⟩, later⟩ := ih (follows.note _)
      have unanswered : s.memo.answer? c = none := follows.unknown unknown
      exact later.settle ⟨depth + 1, by simpa only [answerWithin, unanswered] using searched⟩
    | evaluator => trivial
  | exhausted => exact ⟨⟨0, rfl⟩, follows⟩
  | @declined c rest place found p t unfit _ ih =>
    obtain ⟨⟨depth, searched⟩, later⟩ := ih (follows.note _)
    rw [follows.isEnabled] at unfit
    exact ⟨⟨depth, by simpa [firstWilling, unfit] using searched⟩, later⟩
  | @free c p rest place t fit unbound =>
    rw [follows.isEnabled] at fit
    exact ⟨⟨0, by simp only [firstWilling, fit, unbound, if_true]⟩, follows.note _⟩
  | @met d holder u c p rest place t fit required _ ih =>
    obtain ⟨⟨depth, holds⟩, later⟩ := ih (follows.note _)
    rw [follows.isEnabled] at fit
    exact ⟨⟨depth, by simp only [firstWilling, fit, required, holds, if_true]⟩, later⟩
  | @unmet d u c rest place found p t fit required _ _ ih next =>
    obtain ⟨⟨m, lacks⟩, between⟩ := ih (follows.note _)
    obtain ⟨⟨n, searched⟩, later⟩ := next between
    rw [follows.isEnabled] at fit
    refine ⟨⟨max m n, ?_⟩, later⟩
    have lacking := answerWithin_le (Nat.le_max_left m n) lacks
    have onward := firstWilling_mono
      (fun _ _ => answerWithin_le (r := r) (Nat.le_max_right m n)) searched
    simp only [firstWilling, fit, required, lacking, if_true, onward]

theorem search_ends_told (innerEnds : ∀ p ∈ providers, ∀ d answer u, p.requires = some d →
      owned d = some answer → r.Follows s u → r.Ends (.lookup .parser d) u (inner d u))
    (right : ∀ d answer, owned d = some answer → r.Answers s d answer)
    (first : firstWilling s owned c providers place = some answer) (follows : r.Follows s t) :
    r.Ends (.search c providers place) t (search inner c providers place t) := by
  induction providers generalizing place t with
  | nil => exact .exhausted
  | cons p rest ih =>
    obtain ⟨here, others⟩ := List.forall_mem_cons.mp innerEnds
    have same : (t.note (.asked place c)).isEnabled place = t.isEnabled place := rfl
    have put := follows.note (.asked place c)
    simp only [firstWilling, ← follows.isEnabled] at first
    unfold search willing
    dsimp only
    rw [same]
    cases fit : t.isEnabled place && p.claims c with
    | false =>
      rw [fit] at first
      exact .declined fit (ih others first put)
    | true =>
      cases required : p.requires with
      | none => exact .free fit required
      | some d =>
        simp only [fit, required, if_true] at first
        cases known : owned d with
        | none => simp [known] at first
        | some holder =>
          have looked := here d holder _ required known put
          obtain ⟨answers, later⟩ := looked.told put
          obtain ⟨held, u, answered⟩ : ∃ held u, inner d (t.note (.asked place c)) = (held, u) :=
            ⟨_, _, rfl⟩
          rw [answered] at looked answers later
          cases answers.unique (right d holder known)
          rw [known] at first
          cases held with
          | some place => simpa [answered] using .met fit required looked
          | none => simpa [answered] using .unmet fit required looked (ih others first later)

theorem lookupWithin_ends (deep : r.below (r.depthOf s) c < n) (answers : r.Answers s c answer)
    (follows : r.Follows s t) :
    r.Ends (.lookup .parser c) t (r.lookupWithin n .parser c t) := by
  induction n generalizing c t answer with
  | zero => cases deep
  | succ n ih =>
    cases known : (t.memoOf .parser).answer? c with
    | some first =>
      rw [lookupWithin_hit known]
      exact .hit known
    | none =>
      rw [lookupWithin_miss known]
      have least := answers.within
      cases depth : r.depthOf s c with
      | zero => simp [depth, answerWithin] at least
      | succ m =>
        simp only [depth, answerWithin, follows.unknown known] at least
        have innerEnds : ∀ p ∈ r.providers, ∀ d answer u, p.requires = some d →
            r.answerWithin s m d = some answer → r.Follows s u →
              r.Ends (.lookup .parser d) u (r.lookupWithin n .parser d u) := by
          intro p member d answer u required inside later
          have down : r.depthOf s d < r.depthOf s c := by
            rw [depth]
            exact Nat.lt_succ_of_le (depthOf_le inside)
          have fewer := below_grows member required down
          exact ih (by omega) ⟨m, inside⟩ later
        exact .miss known (search_ends_told innerEnds (fun d answer inside => ⟨m, inside⟩) least
          (follows.note _))

theorem Ends.lookup (ends : r.Ends (.lookup .parser c) s found) :
    r.lookup .parser c s = found := by
  obtain ⟨answers, -⟩ := ends.told (.refl r s)
  exact (lookupWithin_ends (Nat.lt_succ_of_le (r.below_le _ c)) answers (.refl r s)).unique ends

theorem Follows.lookup (follows : r.Follows s t) (answers : r.Answers s c answer) :
    (r.lookup .parser c t).1 = answer ∧ r.Follows s (r.lookup .parser c t).2 := by
  have ends := lookupWithin_ends (Nat.lt_succ_of_le (r.below_le _ c)) answers follows
  obtain ⟨again, later⟩ := ends.told follows
  exact ⟨again.unique answers, later⟩

end ShuntingYard.Registry
