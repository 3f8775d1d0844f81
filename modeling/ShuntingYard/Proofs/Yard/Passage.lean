import ShuntingYard.Proofs.Directory

namespace ShuntingYard

namespace Piece

def cut (directory : Directory σ) (text : List Char) (s : σ) : List Piece × σ :=
  match text with
  | [] => ([], s)
  | c :: rest =>
    let next := next directory c rest s
    let later := cut directory next.rest next.state
    (next.piece :: later.1, later.2)
termination_by text.length
decreasing_by exact Nat.lt_succ_of_le (next_shorter ..)

@[simp] theorem cut_nil (directory : Directory σ) (s : σ) : cut directory [] s = ([], s) := by
  rw [cut]

theorem cut_cons (directory : Directory σ) (c : Char) (rest : List Char) (s : σ) :
    cut directory (c :: rest) s =
      ((next directory c rest s).piece ::
          (cut directory (next directory c rest s).rest (next directory c rest s).state).1,
        (cut directory (next directory c rest s).rest (next directory c rest s).state).2) := by
  rw [cut]

theorem next_same {view : σ → τ} (unheard : directory.Unheard view) (c : Char)
    (rest : List Char) {s t : σ} (same : view s = view t) :
    (next directory c rest s).piece = (next directory c rest t).piece ∧
      (next directory c rest s).rest = (next directory c rest t).rest ∧
      view (next directory c rest s).state = view (next directory c rest t).state := by
  unfold next
  cases Decimal.read? (c :: rest) with
  | some result => exact ⟨rfl, rfl, same⟩
  | none =>
    by_cases blank : isBlank c
    · simp [blank, same]
    · obtain ⟨found, moved⟩ := unheard.operator c same
      simp [blank, found, moved]

end Piece

namespace Yard

-- The yard takes the pieces in one after the other: what leaves it meanwhile, and the stack then.
inductive Passes : List Piece → List Held → List Emission → List Held → Prop where
  | nil : Passes [] stack [] stack
  | cons (shifted : shift stack piece = .ok (released, next))
      (later : Passes rest next emitted last) :
      Passes (piece :: rest) stack (released ++ emitted) last

theorem Passes.one (shifted : shift stack piece = .ok (released, next)) :
    Passes [piece] stack released next := by
  have passed := Passes.cons shifted .nil
  rwa [List.append_nil] at passed

theorem Passes.quiet (shifted : shift stack piece = .ok ([], next))
    (later : Passes rest next emitted last) : Passes (piece :: rest) stack emitted last :=
  .cons shifted later

theorem Passes.append (first : Passes front stack emitted middle)
    (second : Passes back middle later last) :
    Passes (front ++ back) stack (emitted ++ later) last := by
  induction first with
  | nil => exact second
  | cons shifted _ ih =>
    rw [List.append_assoc]
    exact .cons shifted (ih second)

-- The same for all pieces there are, up to the first fault: the yard without the reading.
def feed : List Piece → List Held → Outcome
  | [], stack =>
    match finish stack with
    | .ok last => ⟨last, none⟩
    | .error fault => ⟨[], some fault⟩
  | piece :: rest, stack =>
    match shift stack piece with
    | .error fault => ⟨[], some fault⟩
    | .ok (released, next) => ⟨released ++ (feed rest next).emitted, (feed rest next).fault⟩

theorem Passes.feed (passed : Passes pieces stack emitted last) :
    Yard.feed (pieces ++ rest) stack =
      ⟨emitted ++ (Yard.feed rest last).emitted, (Yard.feed rest last).fault⟩ := by
  induction passed with
  | nil => rfl
  | cons shifted _ ih => simp only [List.cons_append, Yard.feed, shifted, ih, List.append_assoc]

theorem feed_accepted (accepted : (feed pieces stack).fault = none) :
    ∃ emitted last final, Passes pieces stack emitted last ∧ drain? last = some final ∧
      (feed pieces stack).emitted = emitted ++ final.map .ended := by
  induction pieces generalizing stack with
  | nil =>
    cases drained : drain? stack with
    | none => simp [feed, finish, drained] at accepted
    | some final => exact ⟨[], stack, final, .nil, drained, by simp [feed, finish, drained]⟩
  | cons piece rest ih =>
    cases shifted : shift stack piece with
    | error fault => simp [feed, shifted] at accepted
    | ok result =>
      obtain ⟨released, next⟩ := result
      simp only [feed, shifted] at accepted ⊢
      obtain ⟨emitted, last, final, passed, drained, output⟩ := ih accepted
      refine ⟨released ++ emitted, last, final, .cons shifted passed, drained, ?_⟩
      rw [output, List.append_assoc]

-- Reading and shifting take turns in `run`, with notes in between. As notes change no lookup, the
-- text could have been cut beforehand.
theorem run_feed {view : σ → τ} (unheard : directory.Unheard view) (text : List Char)
    (stack : List Held) (emitted : List Emission) {s t : σ} (same : view s = view t) :
    (run directory text stack emitted s).1 =
      ⟨emitted.reverse ++ (feed (Piece.cut directory text t).1 stack).emitted,
        (feed (Piece.cut directory text t).1 stack).fault⟩ := by
  fun_induction run directory text stack emitted s generalizing t with
  | case1 stack emitted s last finished => simp [feed, finished]
  | case2 stack emitted s fault finished => simp [feed, finished]
  | case3 stack emitted s c rest next fault =>
    rename_i shifted
    obtain ⟨piece, -, -⟩ := Piece.next_same unheard c rest same
    rw [show next.piece = _ from piece] at shifted
    simp [Piece.cut_cons, feed, shifted]
  | case4 stack emitted s c rest next released later shifted =>
    rename_i ih
    obtain ⟨piece, left, seen⟩ := Piece.next_same unheard c rest same
    rw [show next.piece = _ from piece] at shifted
    rw [show next.rest = _ from left] at ih ⊢
    rw [ih ((unheard.recorded _ _).trans seen)]
    simp [Piece.cut_cons, feed, shifted]

end Yard

namespace Directory
variable {directory : Directory σ} {view : σ → τ} {source : String} {s : σ} {fault : ParseFault}
  {program : Program}

theorem parse_feed (unheard : directory.Unheard view) (source : String) (s : σ) :
    (directory.parse source s).1 =
      match (Yard.feed (Piece.cut directory source.toList s).1 []).fault with
      | none =>
        .ok ⟨source, (Yard.feed (Piece.cut directory source.toList s).1 []).emitted.map
          Emission.token⟩
      | some fault => .error (.parse fault source) := by
  have ran := Yard.run_feed unheard source.toList [] [] (rfl : view s = view s)
  rw [List.reverse_nil, List.nil_append] at ran
  unfold parse
  simp only [ran]
  cases (Yard.feed (Piece.cut directory source.toList s).1 []).fault <;> rfl

def piecesOf (directory : Directory σ) (source : String) (s : σ) : List Piece :=
  (Piece.cut directory source.toList s).1

theorem parse_fed (unheard : directory.Unheard view)
    (accepted : (Yard.feed (directory.piecesOf source s) []).fault = none) :
    (directory.parse source s).1 =
      .ok ⟨source, (Yard.feed (directory.piecesOf source s) []).emitted.map Emission.token⟩ := by
  rw [piecesOf] at accepted ⊢
  rw [parse_feed unheard, accepted]

theorem parse_stopped (unheard : directory.Unheard view)
    (refused : (Yard.feed (directory.piecesOf source s) []).fault = some fault) :
    (directory.parse source s).1 = .error (.parse fault source) := by
  rw [piecesOf] at refused
  rw [parse_feed unheard, refused]

theorem fed_of_parsed (unheard : directory.Unheard view)
    (parsed : (directory.parse source s).1 = .ok program) :
    (Yard.feed (directory.piecesOf source s) []).fault = none ∧
      program.tokens = (Yard.feed (directory.piecesOf source s) []).emitted.map Emission.token := by
  cases ending : (Yard.feed (directory.piecesOf source s) []).fault with
  | none =>
    rw [parse_fed unheard ending] at parsed
    cases parsed
    exact ⟨rfl, rfl⟩
  | some fault =>
    rw [parse_stopped unheard ending] at parsed
    cases parsed

end Directory
end ShuntingYard
