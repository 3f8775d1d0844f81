import ShuntingYard.Proofs.Yard.Halt
import ShuntingYard.Proofs.Yard.Placement

-- Which of the tokens that leave the yard are recorded, told by the tokens that were read.
namespace ShuntingYard.Yard
variable {tokens : List Token} {pieces : List Piece} {stack last : List Held}
  {emitted released : List Emission} {op : Operator} {i k : Nat} {level : Int}

theorem traced_sublist (tokens : List Token) : (traced tokens).Sublist (sorted tokens) :=
  List.filter_sublist.filterMap _

theorem Stands.waits (stands : Stands tokens k level marks) (listed : (i, .operator op) ∈ marks) :
    ∃ level, Waits tokens k level i op := by
  induction stands with
  | bottom => cases listed
  | operator waits _ _ _ ih =>
    rcases List.mem_cons.mp listed with same | below
    · cases same
      exact ⟨_, waits⟩
    · exact ih below
  | opening _ ih => exact ih ((List.mem_cons.mp listed).resolve_left (by simp))

theorem Stands.untraced (stands : Stands tokens tokens.length level marks) :
    (places marks).filter (traces tokens) = [] := by
  rw [List.filter_eq_nil_iff]
  intro i listed
  obtain ⟨⟨j, held⟩, member, named⟩ := List.mem_filterMap.mp listed
  cases held with
  | opening => cases named
  | operator op =>
    cases named
    obtain ⟨_, waits⟩ := stands.waits member
    rw [waits.untraced fun j after overtaken => absurd overtaken.within (Nat.not_lt_of_le after)]
    simp

theorem passes_traced (passed : Passes pieces [] emitted last) :
    emitted.filterMap Emission.noticed? = traced (pieces.filterMap Piece.token?) := by
  let tokens := pieces.filterMap Piece.token?
  have start : Placed tokens 0 [] [] := ⟨.bottom, by simp, .nil, .nil, by simp⟩
  obtain ⟨order, marks, placed, -, -, noticed⟩ := start.passes passed rfl
  rw [Nat.zero_add, List.nil_append] at placed
  have left := (sorting_perm tokens).trans placed.all.symm
  have same : (sorting tokens).filter (traces tokens) = order.filter (traces tokens) := by
    refine ordered_unique ?_ ((sorting_ordered tokens).filter _) (placed.ordered.filter _)
    have traced := left.filter (traces tokens)
    rwa [List.filter_append, placed.stands.untraced, List.append_nil] at traced
  rw [← noticed, traced, same]

theorem feed_traced (pieces : List Piece) : (feed pieces []).emitted.filterMap Emission.noticed? =
    traced ((pieces.take (halt pieces)).filterMap Piece.token?) := by
  obtain ⟨emitted, last, ops, passed, output, -⟩ := feed_halt pieces
  rw [output, List.filterMap_append, noticed_ended, List.append_nil, passes_traced passed]

theorem noticed_operands (emitted : List Emission) :
    (emitted.filterMap Emission.noticed?).filter Token.isOperand =
      (emitted.map Emission.token).filter Token.isOperand := by
  induction emitted with
  | nil => rfl
  | cons emission rest ih =>
    cases emission with
    | read n => exact congrArg (.operand n :: ·) ih
    | overtaken op => exact ih
    | closed op => exact ih
    | ended op => exact ih

theorem shift_operands (shifted : shift stack piece = .ok (released, last)) :
    (released.map Emission.token).filter Token.isOperand =
      piece.token?.toList.filter Token.isOperand := by
  have operators (ops : List Operator) :
      (ops.map Token.operator).filter Token.isOperand = [] := by
    simp [Token.isOperand]
  cases piece with
  | operand n =>
    cases shifted
    rfl
  | operator op =>
    cases shifted
    rw [map_overtaken]
    exact operators _
  | paren side =>
    cases side with
    | left =>
      cases shifted
      rfl
    | right =>
      simp only [shift] at shifted
      split at shifted
      · cases shifted
        rw [map_closed]
        exact operators _
      · cases shifted
  | blank =>
    cases shifted
    rfl
  | stray c => cases shifted

theorem Passes.operands (passed : Passes pieces stack emitted last) :
    (emitted.map Emission.token).filter Token.isOperand =
      (pieces.filterMap Piece.token?).filter Token.isOperand := by
  induction passed with
  | nil => rfl
  | @cons stack piece _ _ rest _ _ shifted _ ih =>
    have front : (piece :: rest).filterMap Piece.token? =
        piece.token?.toList ++ rest.filterMap Piece.token? := by
      cases cut : piece.token? <;> simp [cut]
    rw [front, List.map_append, List.filter_append, List.filter_append, shift_operands shifted, ih]

theorem traced_operands (pieces : List Piece) :
    (traced ((pieces.take (halt pieces)).filterMap Piece.token?)).filter Token.isOperand =
      ((pieces.take (halt pieces)).filterMap Piece.token?).filter Token.isOperand := by
  obtain ⟨emitted, last, -, passed, -⟩ := feed_halt pieces
  rw [← passes_traced passed, noticed_operands, passed.operands]

end ShuntingYard.Yard
