import ShuntingYard.Proofs.Decimal.Continuation
import ShuntingYard.Proofs.Yard.Passage

namespace ShuntingYard

structure IsSymbol (c : Char) : Prop where
  noDigit : c.isDigit = false
  noPoint : c ≠ '.'
  noOpening : c ≠ '('
  noClosing : c ≠ ')'
  noBlank : isBlank c = false

instance (c : Char) : Decidable (IsSymbol c) :=
  decidable_of_iff
    (c.isDigit = false ∧ c ≠ '.' ∧ c ≠ '(' ∧ c ≠ ')' ∧ isBlank c = false)
    ⟨fun ⟨digit, point, opening, closing, blank⟩ => ⟨digit, point, opening, closing, blank⟩,
      fun ⟨digit, point, opening, closing, blank⟩ => ⟨digit, point, opening, closing, blank⟩⟩

theorem IsSymbol.parted (symbol : IsSymbol c) : Decimal.Parted (c :: rest) :=
  Decimal.parted_cons symbol.noDigit symbol.noPoint rest

theorem blank_parted (blank : isBlank c) : Decimal.Parted (c :: rest) := by
  suffices apart : c.isDigit = false ∧ c ≠ '.' from Decimal.parted_cons apart.1 apart.2 rest
  simp only [isBlank, blankRanges, List.any_cons, List.any_nil, Bool.or_false, Bool.or_eq_true,
    Bool.and_eq_true, decide_eq_true_eq] at blank
  constructor
  · by_contra digit
    simp only [Bool.not_eq_false, Char.isDigit_iff_toNat, Char.reduceToNat] at digit
    omega
  · rintro rfl
    simp at blank

theorem opening_parted (rest : List Char) : Decimal.Parted ('(' :: rest) :=
  Decimal.parted_cons (by decide) (by decide) rest

theorem closing_parted (rest : List Char) : Decimal.Parted (')' :: rest) :=
  Decimal.parted_cons (by decide) (by decide) rest

namespace Piece
open Directory
variable {directory : Directory σ} {start : σ}

def Single (directory : Directory σ) (start : σ) (c : Char) (piece : Piece) : Prop :=
  ∀ s, Reaches directory start s → ∀ rest,
    (next directory c rest s).piece = piece ∧ (next directory c rest s).rest = rest ∧
      Reaches directory s (next directory c rest s).state

-- In front of anything that no number runs on into, the text is cut into these pieces.
def Spells (directory : Directory σ) (start : σ) (text : List Char) (pieces : List Piece) : Prop :=
  ∀ s, Reaches directory start s → ∀ rest, Decimal.Parted rest →
    ∃ t, Reaches directory s t ∧ (cut directory (text ++ rest) s).1 =
      pieces ++ (cut directory rest t).1

theorem Single.looked (parted : ∀ rest, Decimal.Parted (c :: rest)) (noBlank : isBlank c = false)
    (given : Gives directory start c answer) : Single directory start c (ofSymbol c answer) := by
  intro s path rest
  have found := given s path
  unfold next
  simp only [Decimal.read?_parted (parted rest), noBlank, Bool.false_eq_true, if_false, found]
  exact ⟨trivial, trivial, reaches_operator directory c s⟩

theorem Single.operator (symbol : IsSymbol c) (given : Gives directory start c (some op)) :
    Single directory start c (.operator op) :=
  Single.looked (fun _ => symbol.parted) symbol.noBlank given

theorem Single.opening (given : Gives directory start '(' none) :
    Single directory start '(' (.paren .left) :=
  Single.looked opening_parted (by decide) given

theorem Single.closing (given : Gives directory start ')' none) :
    Single directory start ')' (.paren .right) :=
  Single.looked closing_parted (by decide) given

theorem Single.blank (blank : isBlank c) : Single directory start c .blank := by
  intro s _ rest
  unfold next
  simp only [Decimal.read?_parted (blank_parted blank), blank, if_true]
  exact ⟨trivial, trivial, .refl⟩

theorem Spells.nil : Spells directory start [] [] :=
  fun s _ _ _ => ⟨s, .refl, rfl⟩

theorem Spells.cons (single : Single directory start c piece)
    (later : Spells directory start text pieces) :
    Spells directory start (c :: text) (piece :: pieces) := by
  intro s path rest parted
  obtain ⟨same, left, onward⟩ := single s path (text ++ rest)
  obtain ⟨t, further, spelled⟩ := later _ (path.trans onward) rest parted
  refine ⟨t, onward.trans further, ?_⟩
  rw [List.cons_append, cut_cons, same, left, spelled, List.cons_append]

theorem Spells.operand (spelled : Decimal.read? text = some (n, [])) :
    Spells directory start text [.operand n] := by
  intro s path rest parted
  refine ⟨s, .refl, ?_⟩
  have read := Decimal.read?_append parted spelled
  cases text with
  | nil => cases spelled
  | cons c text =>
    rw [List.cons_append] at read ⊢
    rw [cut_cons]
    simp [next, read]

theorem Spells.join (front : Spells directory start text pieces)
    (parted : ∀ rest, Decimal.Parted (c :: rest)) (back : Spells directory start (c :: after) more) :
    Spells directory start (text ++ c :: after) (pieces ++ more) := by
  intro s path rest later
  obtain ⟨t, onward, frontSpelled⟩ := front s path (c :: after ++ rest) (parted _)
  obtain ⟨u, further, backSpelled⟩ := back t (path.trans onward) rest later
  refine ⟨u, onward.trans further, ?_⟩
  rw [List.append_assoc, frontSpelled, backSpelled, List.append_assoc]

theorem Spells.cut (spells : Spells directory start text pieces) :
    (Piece.cut directory text start).1 = pieces := by
  obtain ⟨t, -, spelled⟩ := spells start .refl [] (by simp [Decimal.Parted])
  simpa using spelled

end Piece
end ShuntingYard
