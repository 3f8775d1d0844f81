import ShuntingYard.Proofs.Decimal.Continuation
import ShuntingYard.Proofs.Yard.Passage

namespace ShuntingYard.Piece
-- How a text falls into pieces, rule by rule in the order in which they are tried. Only what is no
-- number and no blank is looked up, each time from the state that the last lookup left.
inductive Cuts (directory : Directory σ) : List Char → σ → List Piece → σ → Prop where
  | done : Cuts directory [] s [] s
  | operand (read : Decimal.read? text = some (n, rest)) (later : Cuts directory rest s pieces t) :
      Cuts directory text s (operand n :: pieces) t
  | operator (unread : Decimal.read? (c :: rest) = none) (noBlank : isBlank c = false)
      (owned : directory.operator? c s = (some op, u)) (later : Cuts directory rest u pieces t) :
      Cuts directory (c :: rest) s (operator op :: pieces) t
  | opening (unread : Decimal.read? ('(' :: rest) = none)
      (unowned : directory.operator? '(' s = (none, u)) (later : Cuts directory rest u pieces t) :
      Cuts directory ('(' :: rest) s (paren .left :: pieces) t
  | closing (unread : Decimal.read? (')' :: rest) = none)
      (unowned : directory.operator? ')' s = (none, u)) (later : Cuts directory rest u pieces t) :
      Cuts directory (')' :: rest) s (paren .right :: pieces) t
  | blank (unread : Decimal.read? (c :: rest) = none) (isBlank : isBlank c)
      (later : Cuts directory rest s pieces t) : Cuts directory (c :: rest) s (blank :: pieces) t
  | stray (unread : Decimal.read? (c :: rest) = none) (noBlank : isBlank c = false)
      (unowned : directory.operator? c s = (none, u)) (noOpening : c ≠ '(') (noClosing : c ≠ ')')
      (later : Cuts directory rest u pieces t) : Cuts directory (c :: rest) s (stray c :: pieces) t

variable {directory : Directory σ} {text rest : List Char} {pieces others : List Piece} {s t u : σ}

theorem next_looked (directory : Directory σ) (unread : Decimal.read? (c :: rest) = none)
    (noBlank : isBlank c = false) (s : σ) :
    next directory c rest s =
      ⟨ofSymbol c (directory.operator? c s).1, rest, (directory.operator? c s).2⟩ := by
  simp only [next, unread, noBlank, Bool.false_eq_true, if_false]

theorem next_blank (directory : Directory σ) (unread : Decimal.read? (c :: rest) = none)
    (isBlank : isBlank c) (s : σ) : next directory c rest s = ⟨blank, rest, s⟩ := by
  simp only [next, unread, isBlank, if_true]

theorem next_operand (directory : Directory σ) (read : Decimal.read? (c :: rest) = some (n, left))
    (s : σ) : next directory c rest s = ⟨operand n, left, s⟩ := by
  simp only [next, read]

theorem Cuts.looked (unread : Decimal.read? (c :: rest) = none) (noBlank : isBlank c = false)
    (later : Cuts directory rest (directory.operator? c s).2 pieces t) :
    Cuts directory (c :: rest) s (ofSymbol c (directory.operator? c s).1 :: pieces) t := by
  cases found : directory.operator? c s with
  | mk answer u =>
    rw [found] at later
    cases answer with
    | some op => exact .operator unread noBlank found later
    | none =>
      by_cases opens : c = '('
      · subst opens
        exact .opening unread found later
      · by_cases closes : c = ')'
        · subst closes
          exact .closing unread found later
        · simp only [ofSymbol, opens, closes, if_false]
          exact .stray unread noBlank found opens closes later

theorem cut_cuts (directory : Directory σ) (text : List Char) (s : σ) :
    Cuts directory text s (cut directory text s).1 (cut directory text s).2 := by
  fun_induction cut directory text s with
  | case1 s => exact .done
  | case2 s c rest first later ih =>
    cases read : Decimal.read? (c :: rest) with
    | some result =>
      obtain ⟨n, left⟩ := result
      have same : first = ⟨operand n, left, s⟩ := next_operand directory read s
      simp only [later, same] at ih ⊢
      exact .operand read ih
    | none =>
      cases noBlank : isBlank c with
      | true =>
        have same : first = ⟨blank, rest, s⟩ := next_blank directory read noBlank s
        simp only [later, same] at ih ⊢
        exact .blank read noBlank ih
      | false =>
        have same : first = ⟨ofSymbol c _, rest, _⟩ := next_looked directory read noBlank s
        simp only [later, same] at ih ⊢
        exact .looked read noBlank ih

theorem Cuts.eq_cut (cuts : Cuts directory text s pieces t) :
    cut directory text s = (pieces, t) := by
  induction cuts with
  | done => exact cut_nil directory _
  | @operand text n rest s pieces t read later ih =>
    cases text with
    | nil => cases read
    | cons c text => rw [cut_cons, next_operand directory read, ih]
  | operator unread noBlank owned later ih =>
    rw [cut_cons, next_looked directory unread noBlank, owned, ih]
    rfl
  | opening unread unowned later ih =>
    rw [cut_cons, next_looked directory unread (by decide), unowned, ih]
    rfl
  | closing unread unowned later ih =>
    rw [cut_cons, next_looked directory unread (by decide), unowned, ih]
    rfl
  | blank unread isBlank later ih => rw [cut_cons, next_blank directory unread isBlank, ih]
  | stray unread noBlank unowned noOpening noClosing later ih =>
    rw [cut_cons, next_looked directory unread noBlank, unowned, ih]
    simp only [ofSymbol, noOpening, noClosing, if_false]

theorem Cuts.unique (cuts : Cuts directory text s pieces t)
    (also : Cuts directory text s others u) : others = pieces :=
  congrArg Prod.fst (also.eq_cut.symm.trans cuts.eq_cut)

theorem next_join (directory : Directory σ) (parted : Decimal.Parted rest) (c : Char)
    (text : List Char) (s : σ) :
    next directory c (text ++ rest) s =
      ⟨(next directory c text s).piece, (next directory c text s).rest ++ rest,
        (next directory c text s).state⟩ := by
  unfold next
  rw [← List.cons_append, Decimal.read?_join parted]
  cases Decimal.read? (c :: text) with
  | some result => rfl
  | none => by_cases blank : isBlank c <;> simp [blank]

theorem cut_join (directory : Directory σ) (parted : Decimal.Parted rest) (text : List Char) (s : σ) :
    (cut directory (text ++ rest) s).1 =
      (cut directory text s).1 ++ (cut directory rest (cut directory text s).2).1 := by
  fun_induction cut directory text s with
  | case1 s => rfl
  | case2 s c text first later ih =>
    rw [List.cons_append, cut_cons, next_join directory parted]
    exact congrArg (first.piece :: ·) ih

end ShuntingYard.Piece
