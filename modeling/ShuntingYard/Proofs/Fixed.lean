import ShuntingYard.Proofs.Course

-- A directory that finds the same whatever was looked up before is as good as a table without a
-- state: no reading and no evaluation can tell them apart.
namespace ShuntingYard.Directory
variable {directory : Directory σ} {start s : σ} {find : Char → Option Provider}

theorem fixed_unheard (find : Char → Option Provider) : (fixed find).Unheard id :=
  ⟨fun _ => rfl, fun _ => rfl, rfl⟩

theorem operator_fixed (finds : directory.Finds start c (find c))
    (path : Reaches directory start s) :
    (directory.operator? c s).1 = ((fixed find).operator? c ()).1 := by
  rw [operator?, finds s path]
  rfl

theorem next_fixed (finds : directory.Finds start c (find c))
    (path : Reaches directory start s) (rest : List Char) :
    (Piece.next directory c rest s).piece = (Piece.next (fixed find) c rest ()).piece ∧
      (Piece.next directory c rest s).rest = (Piece.next (fixed find) c rest ()).rest := by
  unfold Piece.next
  cases Decimal.read? (c :: rest) with
  | some operand => exact ⟨rfl, rfl⟩
  | none =>
    by_cases blank : isBlank c
    · simp only [blank, if_true, and_self]
    · simp only [blank, Bool.false_eq_true, if_false, operator_fixed finds path, and_self]

theorem run_while (sound : Yard.Outcome → Prop)
    (agree : ∀ {s c rest stack emitted}, Reaches directory start s →
      sound (Yard.run (fixed find) (c :: rest) stack emitted ()).1 →
      (Piece.next directory c rest s).piece = (Piece.next (fixed find) c rest ()).piece ∧
        (Piece.next directory c rest s).rest = (Piece.next (fixed find) c rest ()).rest)
    (path : Reaches directory start s) (text : List Char) (stack : List Held)
    (emitted : List Emission) (sounds : sound (Yard.run (fixed find) text stack emitted ()).1) :
    (Yard.run directory text stack emitted s).1 =
      (Yard.run (fixed find) text stack emitted ()).1 := by
  fun_induction Yard.run directory text stack emitted s with
  | case1 stack emitted s last finished => rw [Yard.run, finished]
  | case2 stack emitted s fault finished => rw [Yard.run, finished]
  | case3 stack emitted s c rest next fault =>
    rename_i shifted
    obtain ⟨piece, -⟩ := agree path sounds
    rw [Yard.run, show _ = next.piece from piece.symm, shifted]
  | case4 stack emitted s c rest next released later =>
    rename_i shifted ih
    obtain ⟨piece, remainder⟩ := agree path sounds
    have onward : Reaches directory s next.state := (works_next directory c rest s).reaches
    have told := (works_record directory _ (events_plain released) next.state).reaches
    rw [Yard.run, show _ = next.piece from piece.symm, shifted,
      show _ = next.rest from remainder.symm] at sounds ⊢
    exact ih (path.trans (onward.trans told)) sounds

theorem run_fixed (finds : ∀ c, directory.Finds start c (find c))
    (path : Reaches directory start s) (text : List Char) (stack : List Held)
    (emitted : List Emission) :
    (Yard.run directory text stack emitted s).1 =
      (Yard.run (fixed find) text stack emitted ()).1 :=
  run_while (fun _ => True) (fun {_ c rest _ _} path _ => next_fixed (finds c) path rest) path text
    stack emitted trivial

theorem parse_fixed (finds : ∀ c, directory.Finds start c (find c))
    (path : Reaches directory start s) (source : String) :
    (directory.parse source s).1 = ((fixed find).parse source ()).1 := by
  unfold parse
  dsimp only
  rw [run_fixed finds path]
  split <;> rfl

theorem reduce_fixed (finds : ∀ c, directory.Finds start c (find c))
    (path : Reaches directory start s) (tokens stack : List Token) :
    (directory.reduce tokens stack s).1 = ((fixed find).reduce tokens stack ()).1 := by
  fun_induction directory.reduce tokens stack s with
  | case1 => rfl
  | case2 op rest stack s found next =>
    rename_i replaced ih
    rw [ih (.find op.symbol path), reduce, show ((fixed find).find op.symbol ()).1 = found.1 from
      (finds op.symbol s path).symm, replaced]
  | case3 op rest stack s found fault =>
    rename_i stuck
    rw [reduce, show ((fixed find).find op.symbol ()).1 = found.1 from
      (finds op.symbol s path).symm, stuck]
  | case4 n rest stack s ih => exact ih path
  | case5 side rest stack s ih => exact ih path

theorem evaluate_fixed (finds : ∀ c, directory.Finds start c (find c))
    (path : Reaches directory start s) (program : Program) :
    (directory.evaluate program s).1 = ((fixed find).evaluate program ()).1 := by
  unfold evaluate
  dsimp only
  rw [reduce_fixed finds path]
  split <;> rfl

-- The directory may know more than the table, but of what the table knows it finds the same, and a
-- parenthesis is nothing else to it than to the table.
def Covers (directory : Directory σ) (start : σ) (find : Char → Option Provider) : Prop :=
  ∀ c, (find c).isSome ∨ c = '(' ∨ c = ')' → directory.Finds start c (find c)

theorem next_covered (covers : directory.Covers start find) (path : Reaches directory start s)
    (c : Char) (rest : List Char) (fit : (Piece.next (fixed find) c rest ()).piece ≠ .stray c) :
    (Piece.next directory c rest s).piece = (Piece.next (fixed find) c rest ()).piece ∧
      (Piece.next directory c rest s).rest = (Piece.next (fixed find) c rest ()).rest := by
  by_cases covered : (find c).isSome ∨ c = '(' ∨ c = ')'
  · exact next_fixed (covers c covered) path rest
  · simp only [Option.not_isSome_iff_eq_none, not_or] at covered
    obtain ⟨missing, noOpening, noClosing⟩ := covered
    unfold Piece.next at fit ⊢
    cases read : Decimal.read? (c :: rest) with
    | some operand => exact ⟨rfl, rfl⟩
    | none =>
      by_cases blank : isBlank c
      · simp only [blank, if_true, and_self]
      · have stray : Piece.ofSymbol c ((fixed find).operator? c ()).1 = .stray c := by
          simp [operator?, fixed, missing, Piece.ofSymbol, noOpening, noClosing]
        simp [read, blank, stray] at fit

theorem run_fit (sound : (Yard.run directory (c :: rest) stack emitted s).1.fault = none) :
    (Piece.next directory c rest s).piece ≠ .stray c := by
  intro stray
  rw [Yard.run, stray] at sound
  cases sound

theorem run_covered (covers : directory.Covers start find) (path : Reaches directory start s)
    (text : List Char) (stack : List Held) (emitted : List Emission)
    (sound : (Yard.run (fixed find) text stack emitted ()).1.fault = none) :
    (Yard.run directory text stack emitted s).1 =
      (Yard.run (fixed find) text stack emitted ()).1 :=
  run_while (fun outcome => outcome.fault = none)
    (fun {_ c rest _ _} path sound => next_covered covers path c rest (run_fit sound)) path text
    stack emitted sound

theorem parse_covered (covers : directory.Covers start find) (path : Reaches directory start s)
    (parsed : ((fixed find).parse source ()).1 = .ok program) :
    (directory.parse source s).1 = .ok program := by
  have sound : (Yard.run (fixed find) source.toList [] [] ()).1.fault = none := by
    unfold parse at parsed
    dsimp only at parsed
    split at parsed
    · assumption
    · cases parsed
  rw [← parsed]
  unfold parse
  dsimp only
  rw [run_covered covers path _ _ _ sound]
  split <;> rfl

theorem reduce_covered (covers : directory.Covers start find) (path : Reaches directory start s)
    (reduced : ((fixed find).reduce tokens stack ()).1 = .ok left) :
    (directory.reduce tokens stack s).1 = .ok left := by
  induction tokens generalizing stack s with
  | nil => exact reduced
  | cons token rest ih =>
    cases token with
    | operand n => exact ih path reduced
    | paren side => exact ih path reduced
    | operator op =>
      cases known : find op.symbol with
      | none => simp [reduce, fixed, known, Operator.replaceArguments] at reduced
      | some p =>
        have found : (directory.find op.symbol s).1 = find op.symbol :=
          covers op.symbol (.inl (by simp [known])) s path
        unfold reduce at reduced ⊢
        dsimp only [fixed] at reduced ⊢
        rw [found]
        split at reduced
        · exact ih (.find op.symbol path) reduced
        · cases reduced

theorem evaluate_covered (covers : directory.Covers start find) (path : Reaches directory start s)
    (evaluated : ((fixed find).evaluate program ()).1 = .ok n) :
    (directory.evaluate program s).1 = .ok n := by
  unfold evaluate at evaluated ⊢
  dsimp only at evaluated ⊢
  split at evaluated
  · rename_i reduced
    rw [reduce_covered covers path reduced]
    exact evaluated
  · cases evaluated
  · cases evaluated

end ShuntingYard.Directory
