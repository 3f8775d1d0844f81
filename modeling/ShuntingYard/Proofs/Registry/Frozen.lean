import ShuntingYard.Proofs.Registry.View
import ShuntingYard.Proofs.Registry.Lookup

namespace ShuntingYard

-- Entries come in at the front and never for a symbol that has one.
structure Memo.Extends (old new : Memo) : Prop where
  suffix : old <:+ new
  kept : ∀ c answer, old.answer? c = some answer → new.answer? c = some answer

namespace Memo
variable {old middle new : Memo}

theorem Extends.refl (memo : Memo) : memo.Extends memo := ⟨List.suffix_rfl, fun _ _ known => known⟩

theorem Extends.trans (one : old.Extends middle) (two : middle.Extends new) : old.Extends new :=
  ⟨one.suffix.trans two.suffix, fun c answer known => two.kept c answer (one.kept c answer known)⟩

theorem extends_remember (memo : Memo) (c : Char) (answer : Option Nat) :
    memo.Extends (memo.remember c answer) where
  suffix := by
    unfold remember
    split
    · exact List.suffix_rfl
    · exact List.suffix_cons _ memo
  kept d first known := by
    rw [answer?_remember]
    split
    · rename_i same
      rw [← same, known]
      rfl
    · exact known

end Memo

def Event.isSearch : Event → Bool
  | .asked _ _ => true
  | .resolved _ _ => true
  | _ => false

theorem Event.isSearch_plain {event : Event} (plain : event.isLookup = false) :
    event.isSearch = false := by
  cases event <;> first | rfl | cases plain

namespace Registry
variable {r : Registry} {s t u : State} {client : Client} {c : Char}

def State.Extends (s t : State) : Prop := ∀ client, (s.memoOf client).Extends (t.memoOf client)

theorem State.Extends.refl (s : State) : s.Extends s := fun _ => .refl _

theorem State.Extends.trans (one : s.Extends t) (two : t.Extends u) : s.Extends u :=
  fun client => (one client).trans (two client)

theorem State.extends_remember (client : Client) (c : Char) (answer : Option Nat) (s : State) :
    s.Extends (s.remember client c answer) := by
  intro other
  rcases memoOf_remember_other client other c answer s with same | grown
  · rw [same]
    exact .refl _
  · rw [grown]
    exact Memo.extends_remember _ c answer

theorem extends_kept (r : Registry) (s : State) : r.Kept s.Extends :=
  kept_of_remembered (fun _ _ ext => ext)
    (fun client c answer t _ ext => ext.trans (t.extends_remember client c answer))

def State.Unsearched (s t : State) : Prop :=
  ∃ notes : History, t = { s with history := notes ++ s.history } ∧
    ∀ event ∈ notes, event.isSearch = false

namespace State.Unsearched

theorem refl (s : State) : s.Unsearched s := ⟨[], rfl, by simp⟩

theorem trans (one : s.Unsearched t) (two : t.Unsearched u) : s.Unsearched u := by
  obtain ⟨early, rfl, quiet⟩ := one
  obtain ⟨late, rfl, alsoQuiet⟩ := two
  refine ⟨late ++ early, by simp, fun event noted => ?_⟩
  exact (List.mem_append.mp noted).elim (alsoQuiet event) (quiet event)

theorem note (event : Event) (quiet : event.isSearch = false) (s : State) :
    s.Unsearched (s.note event) := ⟨[event], rfl, by simpa using quiet⟩

theorem visible (unsearched : s.Unsearched t) : t.visible = s.visible := by
  obtain ⟨notes, rfl, -⟩ := unsearched
  rfl

theorem extends_iff (unsearched : s.Unsearched t) : u.Extends s ↔ u.Extends t := by
  simp only [Extends, memoOf_same unsearched.visible]

theorem questions (unsearched : s.Unsearched t) (place : Nat) :
    t.history.questions place = s.history.questions place := by
  obtain ⟨notes, rfl, quiet⟩ := unsearched
  have none : notes.questions place = 0 := by
    refine List.countP_eq_zero.mpr fun event noted => ?_
    have plain := quiet event noted
    cases event with
    | asked => cases plain
    | _ => simp
  simpa [History.questions, List.countP_append] using none

end State.Unsearched

theorem record_unsearched (r : Registry) (client : Client) (events : List Event)
    (plain : ∀ event ∈ events, event.isLookup = false) (s : State) :
    s.Unsearched ((r.directory client).record events s) := by
  induction events generalizing s with
  | nil => exact .refl s
  | cons event rest ih =>
    obtain ⟨first, others⟩ := List.forall_mem_cons.mp plain
    exact (State.Unsearched.note event (Event.isSearch_plain first) s).trans (ih others _)

-- Every symbol that was ever looked up has an answer, but for those still being searched for.
def State.AnsweredBut (pending : List Char) (s : State) : Prop :=
  ∀ c, .requested c ∈ s.history →
    c ∈ pending ∨ ∃ client answer, (s.memoOf client).answer? c = some answer

namespace State.AnsweredBut
variable {pending : List Char}

theorem note {event : Event} (answered : s.AnsweredBut pending)
    (other : ∀ c, event ≠ .requested c) : (s.note event).AnsweredBut pending := by
  intro c requested
  rcases List.mem_cons.mp requested with same | earlier
  · exact absurd same.symm (other c)
  · exact answered c earlier

theorem request (answered : s.AnsweredBut pending) (c : Char) :
    (s.note (.requested c)).AnsweredBut (c :: pending) := by
  intro d requested
  rcases List.mem_cons.mp requested with same | earlier
  · cases same
    exact .inl List.mem_cons_self
  · exact (answered d earlier).imp_left (List.mem_cons_of_mem c)

theorem settle (answered : s.AnsweredBut (c :: pending))
    (known : ∃ client answer, (s.memoOf client).answer? c = some answer) :
    s.AnsweredBut pending := by
  intro d requested
  rcases answered d requested with waiting | found
  · rcases List.mem_cons.mp waiting with rfl | later
    · exact .inr known
    · exact .inl later
  · exact .inr found

theorem remember (answered : s.AnsweredBut pending) (client : Client) (c : Char)
    (answer : Option Nat) : (s.remember client c answer).AnsweredBut pending := by
  intro d requested
  rw [history_remember] at requested
  refine (answered d requested).imp_right fun ⟨other, found, known⟩ => ?_
  exact ⟨other, found, (s.extends_remember client c answer other).kept d found known⟩

end State.AnsweredBut

theorem lookupWithin_answers {pending : List Char} (depth : Nat) (client : Client) (c : Char)
    (answered : s.AnsweredBut pending) :
    (r.lookupWithin depth client c s).2.AnsweredBut pending := by
  induction depth generalizing client c s pending with
  | zero => exact answered
  | succ depth ih =>
    cases known : (s.memoOf client).answer? c with
    | some answer =>
      rw [lookupWithin_hit known]
      exact (answered.request c).settle ⟨client, answer, known⟩
    | none =>
      have searched := search_keeps (c := c) r.providers (fun place _ held => held.note (by simp))
        (fun _ _ d _ _ begun => ih .parser d begun) 0 (answered.request c)
      rw [lookupWithin_miss known]
      exact ((searched.note (by simp)).remember client c _).settle
        ⟨client, _, settle_remembered client c _⟩

theorem answered_upheld (r : Registry) : r.Upheld (State.AnsweredBut []) where
  found client c _ answered := lookupWithin_answers _ client c answered
  noted event _ plain answered := answered.note fun c same => by
    rw [same] at plain
    cases plain

end Registry
end ShuntingYard
