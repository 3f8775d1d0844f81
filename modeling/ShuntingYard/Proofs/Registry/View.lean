import ShuntingYard.Registry
import ShuntingYard.Proofs.Directory

namespace ShuntingYard.Registry

-- What lookups see of a state: everything but its history.
def State.visible (s : State) : List Bool × Memo × Option Memo := (s.enabled, s.memo, s.own)

@[simp] theorem State.visible_note (event : Event) (s : State) :
    (s.note event).visible = s.visible := rfl

theorem State.visible_eq {s t : State} (same : s.visible = t.visible) :
    s.enabled = t.enabled ∧ s.memo = t.memo ∧ s.own = t.own := by
  simpa only [visible, Prod.mk.injEq] using same

theorem State.memoOf_same {s t : State} (same : s.visible = t.visible) (client : Client) :
    s.memoOf client = t.memoOf client := by
  obtain ⟨-, memo, own⟩ := visible_eq same
  cases client with
  | parser => exact memo
  | evaluator => simp only [memoOf, memo, own]

theorem State.remember_same {s t : State} (same : s.visible = t.visible) (client : Client)
    (c : Char) (answer : Option Nat) :
    (s.remember client c answer).visible = (t.remember client c answer).visible := by
  obtain ⟨enabled, memo, own⟩ := visible_eq same
  unfold remember
  rw [own]
  split <;> simp [visible, enabled, memo]

-- An operation that can neither answer by the history nor let it decide what becomes of the rest.
def Blind (operation : State → α × State) : Prop :=
  ∀ s t, s.visible = t.visible →
    (operation s).1 = (operation t).1 ∧ (operation s).2.visible = (operation t).2.visible

variable {inner : Char → State → Option Nat × State}

theorem willing_blind (innerBlind : ∀ d, Blind (inner d)) (provider : Provider) (place : Nat)
    (c : Char) : Blind (willing inner provider place c) := by
  intro s t same
  obtain ⟨enabled, -, -⟩ := State.visible_eq same
  have asked : (s.note (.asked place c)).visible = (t.note (.asked place c)).visible := same
  have on : (s.note (.asked place c)).isEnabled place = (t.note (.asked place c)).isEnabled place := by
    simp only [State.isEnabled, State.note, enabled]
  unfold willing
  dsimp only
  rw [on]
  split
  · cases provider.requires with
    | none => exact ⟨rfl, asked⟩
    | some required =>
      obtain ⟨answer, kept⟩ := innerBlind required _ _ asked
      exact ⟨congrArg Option.isSome answer, kept⟩
  · exact ⟨rfl, asked⟩

theorem search_blind (innerBlind : ∀ d, Blind (inner d)) (c : Char) (providers : List Provider)
    (place : Nat) : Blind (search inner c providers place) := by
  induction providers generalizing place with
  | nil => exact fun s t same => ⟨rfl, same⟩
  | cons provider rest ih =>
    intro s t same
    obtain ⟨answer, kept⟩ := willing_blind innerBlind provider place c s t same
    unfold search
    dsimp only
    rw [answer]
    split
    · exact ⟨rfl, kept⟩
    · exact ih _ _ _ kept

theorem lookupWithin_blind (r : Registry) (depth : Nat) (client : Client) (c : Char) :
    Blind (r.lookupWithin depth client c) := by
  induction depth generalizing client c with
  | zero => exact fun s t same => ⟨rfl, same⟩
  | succ depth ih =>
    intro s t same
    have requested : (s.note (.requested c)).visible = (t.note (.requested c)).visible := same
    obtain ⟨found, kept⟩ := search_blind (ih .parser) c r.providers 0 _ _ requested
    unfold lookupWithin
    dsimp only
    rw [State.memoOf_same requested client]
    cases ((t.note (.requested c)).memoOf client).answer? c with
    | some answer => exact ⟨rfl, requested⟩
    | none =>
      generalize search (r.lookupWithin depth .parser) c r.providers 0 (s.note (.requested c)) = one
        at found kept ⊢
      generalize search (r.lookupWithin depth .parser) c r.providers 0 (t.note (.requested c)) = two
        at found kept ⊢
      rw [found]
      have noted : (one.2.note (.resolved c two.1.isSome)).visible =
          (two.2.note (.resolved c two.1.isSome)).visible := kept
      have settled := State.remember_same noted client c two.1
      rw [State.memoOf_same settled client]
      exact ⟨rfl, settled⟩

theorem lookup_blind (r : Registry) (client : Client) (c : Char) : Blind (r.lookup client c) :=
  r.lookupWithin_blind _ client c

theorem directory_unheard (r : Registry) (client : Client) :
    (r.directory client).Unheard State.visible where
  found same := congrArg (·.bind fun place => r.providers[place]?) (r.lookup_blind client _ _ _ same).1
  moved same := (r.lookup_blind client _ _ _ same).2
  noted := rfl

end ShuntingYard.Registry
