import ShuntingYard.Proofs.Arithmetic.Exact
import ShuntingYard.Proofs.Decimal.Continuation

-- The numbers of a text, told without reading it from the left.
namespace ShuntingYard.Decimal

structure IsRun (cs : List Char) : Prop where
  chars : ∀ c ∈ cs, c.isDigit ∨ c = '.'
  points : cs.count '.' ≤ 1

structure LongestRun (text cs : List Char) : Prop where
  front : cs <+: text
  isRun : IsRun cs
  longest : ∀ other, other <+: text → IsRun other → other.length ≤ cs.length

-- What a run is worth. Its digits make an integer as far as words go, a point among them a float.
inductive Worth : List Char → Option Number → Prop where
  | empty : Worth [] none
  | point : Worth ['.'] none
  | word {k : Int64} (present : cs ≠ []) (pointless : '.' ∉ cs)
      (value : k.toInt = Nat.ofDigitChars 10 cs 0) :
      Worth cs (some (.integer k))
  | beyond (pointless : '.' ∉ cs) (large : Int64.maxValue.toInt < Nat.ofDigitChars 10 cs 0) :
      Worth cs none
  | float (parts : cs = whole ++ '.' :: fraction) (digit : ∃ c ∈ cs, c.isDigit) :
      Worth cs (some (.float
        (.ofScientific (Nat.ofDigitChars 10 (whole ++ fraction) 0) true fraction.length)))

variable {text cs more whole fraction : List Char} {c : Char}

theorem LongestRun.unique (one : LongestRun text cs) (two : LongestRun text more) : cs = more := by
  have shorter := two.longest cs one.front one.isRun
  have longer := one.longest more two.front two.isRun
  exact (List.prefix_of_prefix_length_le one.front two.front shorter).eq_of_length
    (Nat.le_antisymm shorter longer)

theorem ne_point (digit : c.isDigit) : c ≠ '.' := by
  rintro rfl
  exact absurd digit (by decide)

theorem count_digits (digits : ∀ c ∈ cs, c.isDigit) : cs.count '.' = 0 :=
  List.count_eq_zero.mpr fun point => ne_point (digits _ point) rfl

theorem isRun_digits (digits : ∀ c ∈ cs, c.isDigit) : IsRun cs :=
  ⟨fun c listed => .inl (digits c listed), (count_digits digits).trans_le (Nat.zero_le 1)⟩

theorem isRun_digit (digit : c.isDigit) : IsRun (c :: cs) ↔ IsRun cs := by
  have points : (c :: cs).count '.' = cs.count '.' := List.count_cons_of_ne (ne_point digit)
  constructor
  · exact fun all => ⟨(List.forall_mem_cons.mp all.chars).2, points ▸ all.points⟩
  · exact fun rest => ⟨List.forall_mem_cons.mpr ⟨.inl digit, rest.chars⟩, points ▸ rest.points⟩

theorem isRun_point : IsRun ('.' :: cs) ↔ ∀ c ∈ cs, c.isDigit := by
  have points : ('.' :: cs).count '.' = cs.count '.' + 1 := List.count_cons_self
  constructor
  · intro all c listed
    have none : '.' ∉ cs := List.count_eq_zero.mp (by have := all.points; omega)
    refine (all.chars c (List.mem_cons_of_mem _ listed)).resolve_right ?_
    rintro rfl
    exact none listed
  · intro digits
    refine ⟨List.forall_mem_cons.mpr ⟨.inr rfl, (isRun_digits digits).chars⟩, ?_⟩
    rw [points, count_digits digits]

theorem length_le_digits (front : cs <+: text) (digits : ∀ c ∈ cs, c.isDigit) :
    cs.length ≤ (text.takeWhile Char.isDigit).length := by
  obtain ⟨behind, rfl⟩ := front
  rw [List.takeWhile_append_of_pos digits, List.length_append]
  exact Nat.le_add_right ..

theorem run_digit (digit : c.isDigit) (text : List Char) : run (c :: text) = c :: run text := by
  have front : ∀ d ∈ [c], d.isDigit := by simpa using digit
  exact run_digits front text

theorem run_longest (text : List Char) : LongestRun text (run text) := by
  refine ⟨run_front text, ?_, ?_⟩
  · induction text with
    | nil => exact isRun_digits (by simp [run])
    | cons c text ih =>
      by_cases digit : c.isDigit
      · rw [run_digit digit]
        exact (isRun_digit digit).mpr ih
      · by_cases point : c = '.'
        · rw [point, run_point]
          exact isRun_point.mpr fun _ => List.mem_takeWhile_imp
        · rw [run_parted (parted_cons (by simpa using digit) point text)]
          exact isRun_digits (by simp)
  · induction text with
    | nil =>
      intro other front _
      rw [List.prefix_nil.mp front]
      exact Nat.zero_le _
    | cons c text ih =>
      intro other front isRun
      cases other with
      | nil => exact Nat.zero_le _
      | cons d other =>
        obtain ⟨rfl, within⟩ := List.cons_prefix_cons.mp front
        by_cases digit : d.isDigit
        · rw [run_digit digit]
          exact Nat.succ_le_succ (ih other within ((isRun_digit digit).mp isRun))
        · have point : d = '.' := (isRun.chars d List.mem_cons_self).resolve_left digit
          subst point
          rw [run_point]
          exact Nat.succ_le_succ (length_le_digits within (isRun_point.mp isRun))

theorem IsRun.digits (isRun : IsRun cs) (pointless : '.' ∉ cs) : ∀ c ∈ cs, c.isDigit := by
  intro c listed
  refine (isRun.chars c listed).resolve_right ?_
  rintro rfl
  exact pointless listed

theorem IsRun.sides (isRun : IsRun (whole ++ '.' :: fraction)) :
    (∀ c ∈ whole, c.isDigit) ∧ ∀ c ∈ fraction, c.isDigit := by
  have once : whole.count '.' + (fraction.count '.' + 1) ≤ 1 := by
    simpa using isRun.points
  have front : IsRun whole := ⟨fun c listed => isRun.chars c (by simp [listed]), by omega⟩
  have back : IsRun fraction := ⟨fun c listed => isRun.chars c (by simp [listed]), by omega⟩
  exact ⟨front.digits (List.count_eq_zero.mp (by omega)),
    back.digits (List.count_eq_zero.mp (by omega))⟩

theorem ofRun?_point (isRun : IsRun (whole ++ '.' :: fraction)) :
    ofRun? (whole ++ '.' :: fraction) =
      if whole = [] ∧ fraction = [] then none
      else some (.float (.ofScientific (Nat.ofDigitChars 10 (whole ++ fraction) 0) true
        fraction.length)) := by
  obtain ⟨digits, -⟩ := isRun.sides
  have front : (whole ++ '.' :: fraction).takeWhile Char.isDigit = whole := by
    rw [List.takeWhile_append_of_pos digits, List.takeWhile_cons_of_neg (by decide),
      List.append_nil]
  have back : (whole ++ '.' :: fraction).dropWhile Char.isDigit = '.' :: fraction := by
    rw [List.dropWhile_append_of_pos digits, List.dropWhile_cons_of_neg (by decide)]
  simp only [ofRun?, front, back, Bool.and_eq_true, List.isEmpty_iff]

theorem IsRun.worth (isRun : IsRun cs) : Worth cs (ofRun? cs) := by
  by_cases point : '.' ∈ cs
  · obtain ⟨whole, fraction, rfl⟩ := List.append_of_mem point
    obtain ⟨front, back⟩ := isRun.sides
    rw [ofRun?_point isRun]
    split
    · rename_i alone
      obtain ⟨rfl, rfl⟩ := alone
      exact .point
    · rename_i more
      have present : whole ++ fraction ≠ [] := fun none => more (List.append_eq_nil_iff.mp none)
      obtain ⟨c, listed⟩ := List.exists_mem_of_ne_nil _ present
      rcases List.mem_append.mp listed with before | behind
      · exact .float rfl ⟨c, by simp [before], front c before⟩
      · exact .float rfl ⟨c, by simp [behind], back c behind⟩
  · by_cases none : cs = []
    · subst none
      exact .empty
    · rw [ofRun?_digits (isRun.digits point) none]
      have least : Int64.minValue.toInt ≤ 0 := by decide
      by_cases fits : Binary.Fits (Nat.ofDigitChars 10 cs 0)
      · rw [Binary.word?_fits fits]
        exact .word none point (Binary.toInt_ofInt fits)
      · rw [Binary.word?_misfit fits]
        refine .beyond point ?_
        unfold Binary.Fits at fits
        omega

end ShuntingYard.Decimal
