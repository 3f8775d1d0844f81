import ShuntingYard.Proofs.Spelling
import ShuntingYard.Proofs.Yard.Cutting

-- Blanks part what stands around them and do nothing else: the yard takes no notice of them, and
-- how many there are at one place makes no difference to the pieces around it.
namespace ShuntingYard

def Blanks (text : String) : Prop := ∀ c ∈ text.toList, isBlank c

-- Texts that differ in blanks only. Where blanks part two characters, others would part them too.
-- Beside a character that no number goes on with, and at the ends, none are needed.
inductive Respaced : String → String → Prop where
  | between (filled : w ≠ "") (alsoFilled : x ≠ "") (blanks : Blanks w) (others : Blanks x)
      (s t : String) : Respaced (s ++ w ++ t) (s ++ x ++ t)
  | beside (noDigit : c.isDigit = false) (noPoint : c ≠ '.') (blanks : Blanks v)
      (others : Blanks x) (s t : String) :
      Respaced (s ++ v ++ .singleton c ++ x ++ t) (s ++ .singleton c ++ t)
  | around (blanks : Blanks v) (others : Blanks x) (s : String) : Respaced (v ++ s ++ x) s

namespace Piece
variable {directory : Directory σ} {text rest other blanks : List Char} {c : Char}

def solid (pieces : List Piece) : List Piece := pieces.filter (· ≠ .blank)

theorem solid_append (front back : List Piece) : solid (front ++ back) = solid front ++ solid back :=
  List.filter_append ..

theorem cut_blank (directory : Directory σ) (isBlank : isBlank c) (rest : List Char) (s : σ) :
    cut directory (c :: rest) s = (blank :: (cut directory rest s).1, (cut directory rest s).2) := by
  rw [cut_cons, next_blank directory (Decimal.read?_parted (blank_parted isBlank)) isBlank]

theorem solid_blanks (directory : Directory σ) (all : ∀ c ∈ blanks, isBlank c) (rest : List Char)
    (s : σ) : solid (cut directory (blanks ++ rest) s).1 = solid (cut directory rest s).1 := by
  induction blanks with
  | nil => rfl
  | cons c blanks ih =>
    obtain ⟨first, others⟩ := List.forall_mem_cons.mp all
    rw [List.cons_append, cut_blank directory first]
    exact ih others

theorem solid_onto (parted : Decimal.Parted rest) (alsoParted : Decimal.Parted other)
    (same : ∀ s, solid (cut directory rest s).1 = solid (cut directory other s).1)
    (text : List Char) (s : σ) :
    solid (cut directory (text ++ rest) s).1 = solid (cut directory (text ++ other) s).1 := by
  rw [cut_join directory parted, cut_join directory alsoParted, solid_append, solid_append, same]

theorem next_apart (directory : Directory σ) (noDigit : c.isDigit = false) (noPoint : c ≠ '.')
    (s : σ) : ∃ piece t, ∀ rest, next directory c rest s = ⟨piece, rest, t⟩ := by
  have unread (rest : List Char) := Decimal.read?_parted (Decimal.parted_cons noDigit noPoint rest)
  cases blank : isBlank c with
  | true => exact ⟨_, _, fun rest => next_blank directory (unread rest) blank s⟩
  | false => exact ⟨_, _, fun rest => next_looked directory (unread rest) blank s⟩

theorem blanks_parted (all : ∀ c ∈ blanks, isBlank c) (parted : Decimal.Parted rest) :
    Decimal.Parted (blanks ++ rest) := by
  cases blanks with
  | nil => exact parted
  | cons c blanks => exact blank_parted (List.forall_mem_cons.mp all).1

theorem solid_between (directory : Directory σ) (filled : blanks ≠ [])
    (all : ∀ c ∈ blanks, isBlank c) (text rest : List Char) (s : σ) :
    solid (cut directory (text ++ (blanks ++ rest)) s).1 =
      solid (cut directory text s).1 ++ solid (cut directory rest (cut directory text s).2).1 := by
  have parted : Decimal.Parted (blanks ++ rest) := by
    cases blanks with
    | nil => exact absurd rfl filled
    | cons c blanks => exact blank_parted (List.forall_mem_cons.mp all).1
  rw [cut_join directory parted, solid_append, solid_blanks directory all]

theorem solid_beside (directory : Directory σ) (noDigit : c.isDigit = false) (noPoint : c ≠ '.')
    (all : ∀ c ∈ blanks, isBlank c) (others : ∀ c ∈ other, isBlank c) (text rest : List Char)
    (s : σ) : solid (cut directory (text ++ (blanks ++ c :: (other ++ rest))) s).1 =
      solid (cut directory (text ++ c :: rest) s).1 := by
  have parted (rest : List Char) := Decimal.parted_cons noDigit noPoint rest
  refine solid_onto (blanks_parted all (parted _)) (parted rest) (fun s => ?_) text s
  obtain ⟨piece, t, apart⟩ := next_apart directory noDigit noPoint s
  have front (rest : List Char) : solid (cut directory (c :: rest) s).1 =
      solid [piece] ++ solid (cut directory rest t).1 := by
    rw [cut_cons, apart, ← solid_append, List.singleton_append]
  rw [solid_blanks directory all, front, front, solid_blanks directory others]

theorem solid_around (directory : Directory σ) (all : ∀ c ∈ blanks, isBlank c)
    (others : ∀ c ∈ other, isBlank c) (text : List Char) (s : σ) :
    solid (cut directory (blanks ++ (text ++ other)) s).1 = solid (cut directory text s).1 := by
  have parted : Decimal.Parted other := by
    rw [← List.append_nil other]
    exact blanks_parted others (by simp [Decimal.Parted])
  have same (s : σ) : solid (cut directory other s).1 = solid (cut directory [] s).1 := by
    rw [← List.append_nil other, solid_blanks directory others]
  rw [solid_blanks directory all, solid_onto parted (by simp [Decimal.Parted]) same, List.append_nil]

end Piece

namespace Yard

theorem feed_solid (pieces : List Piece) (stack : List Held) :
    feed (Piece.solid pieces) stack = feed pieces stack := by
  induction pieces generalizing stack with
  | nil => rfl
  | cons piece rest ih =>
    by_cases blank : piece = .blank
    · subst blank
      exact ih stack
    · rw [show Piece.solid (piece :: rest) = piece :: Piece.solid rest by simp [Piece.solid, blank]]
      unfold feed
      split
      · rfl
      · rw [ih]

end Yard

theorem Respaced.solid (spaced : Respaced source other) (directory : Directory σ) (s : σ) :
    Piece.solid (directory.piecesOf source s) = Piece.solid (directory.piecesOf other s) := by
  unfold Directory.piecesOf
  cases spaced with
  | between filled alsoFilled blanks others front rest =>
    have part {w : String} (filled : w ≠ "") (blanks : Blanks w) :=
      Piece.solid_between directory (mt String.toList_eq_nil_iff.mp filled) blanks front.toList
        rest.toList s
    simp only [String.toList_append, List.append_assoc, part filled blanks,
      part alsoFilled others]
  | beside noDigit noPoint blanks others front rest =>
    have part := Piece.solid_beside directory noDigit noPoint blanks others front.toList rest.toList s
    simpa using part
  | around blanks others =>
    have part := Piece.solid_around directory blanks others other.toList s
    simpa using part

end ShuntingYard
