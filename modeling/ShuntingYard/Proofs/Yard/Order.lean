import ShuntingYard.Proofs.Yard.Stack

namespace ShuntingYard

def Piece.token? : Piece → Option Token
  | .operand n => some (.operand n)
  | .operator op => some (.operator op)
  | .paren side => some (.paren side)
  | .blank => none
  | .stray _ => none

namespace Yard

def depth (tokens : List Token) (place : Nat) : Int :=
  (tokens.take place).count (.paren .left) - (tokens.take place).count (.paren .right)

-- The innermost open parenthesis is the same at both places, or there is none at both.
def Beside (tokens : List Token) (i j : Nat) : Prop :=
  depth tokens j = depth tokens i ∧ ∀ m ≤ j, i ≤ m → depth tokens i ≤ depth tokens m

def frees (op : Operator) : Token → Bool
  | .operator arriving => arriving.yieldsTo op
  | .paren .right => true
  | _ => false

-- The token at `j` makes the operator at `i` leave, if nothing did so before.
def Releases (tokens : List Token) (op : Operator) (i j : Nat) : Prop :=
  i < j ∧ Beside tokens i j ∧ tokens[j]?.any (frees op)

instance (tokens : List Token) (op : Operator) (i j : Nat) : Decidable (Releases tokens op i j) :=
  inferInstanceAs (Decidable (_ ∧ (_ ∧ ∀ m ≤ j, _ → _) ∧ _))

-- An operand leaves where it stands, an operator where it is first released, or at the end.
def leaving (tokens : List Token) (i : Nat) : Nat :=
  match tokens[i]? with
  | some (.operator op) =>
    ((List.range tokens.length).find? fun j => Releases tokens op i j).getD tokens.length
  | _ => i

def notAfter (tokens : List Token) (i j : Nat) : Bool :=
  leaving tokens i < leaving tokens j ∨ leaving tokens i = leaving tokens j ∧ j ≤ i

def plain (tokens : List Token) (i : Nat) : Bool := tokens[i]?.any fun token => !token.isParen

def sorted (tokens : List Token) : List Token :=
  (((List.range tokens.length).filter (plain tokens)).mergeSort (notAfter tokens)).filterMap
    (tokens[·]?)

def sorting (tokens : List Token) : List Nat :=
  ((List.range tokens.length).filter (plain tokens)).mergeSort (notAfter tokens)

def overtakes (op : Operator) : Token → Bool
  | .operator arriving => arriving.yieldsTo op
  | _ => false

-- The operator at `j` stands behind the one at `i`, between the same parentheses, and yields to it.
def Overtakes (tokens : List Token) (op : Operator) (i j : Nat) : Prop :=
  i < j ∧ Beside tokens i j ∧ tokens[j]?.any (overtakes op)

instance (tokens : List Token) (op : Operator) (i j : Nat) : Decidable (Overtakes tokens op i j) :=
  inferInstanceAs (Decidable (_ ∧ (_ ∧ ∀ m ≤ j, _ → _) ∧ _))

def traces (tokens : List Token) (i : Nat) : Bool :=
  match tokens[i]? with
  | some (.operand _) => true
  | some (.operator op) => (List.range tokens.length).any fun j => Overtakes tokens op i j
  | _ => false

def traced (tokens : List Token) : List Token :=
  ((sorting tokens).filter (traces tokens)).filterMap (tokens[·]?)

variable {tokens : List Token} {token : Token} {op : Operator} {i j k : Nat}

theorem depth_succ (here : tokens[k]? = some token) : depth tokens (k + 1) = depth tokens k +
    (if token = .paren .left then 1 else 0) - (if token = .paren .right then 1 else 0) := by
  simp only [depth, List.take_add_one, here, Option.toList_some, List.count_append,
    List.count_singleton, beq_iff_eq]
  split <;> split <;> omega

theorem depth_same (here : tokens[k]? = some token) (noParen : ¬ token.isParen) :
    depth tokens (k + 1) = depth tokens k := by
  rw [depth_succ here]
  cases token with
  | operand n => simp
  | operator op => simp
  | paren side => simp [Token.isParen] at noParen

theorem leaving_operand (here : tokens[i]? = some (.operand n)) : leaving tokens i = i := by
  simp only [leaving, here]

theorem leaving_freed (here : tokens[i]? = some (.operator op)) (freed : Releases tokens op i k)
    (first : ∀ j < k, ¬ Releases tokens op i j) : leaving tokens i = k := by
  obtain ⟨_, present, _⟩ := (Option.any_eq_true ..).mp freed.2.2
  have inside := (List.getElem?_eq_some_iff.mp present).1
  have found : ((List.range tokens.length).find? fun j => Releases tokens op i j) = some k := by
    rw [List.find?_range_eq_some]
    refine ⟨decide_eq_true freed, List.mem_range.mpr inside, fun j before => ?_⟩
    simpa using first j before
  simp only [leaving, here, found, Option.getD_some]

theorem leaving_last (here : tokens[i]? = some (.operator op))
    (never : ∀ j < tokens.length, ¬ Releases tokens op i j) : leaving tokens i = tokens.length := by
  have missing : ((List.range tokens.length).find? fun j => Releases tokens op i j) = none := by
    rw [List.find?_eq_none]
    intro j inside
    simpa using never j (List.mem_range.mp inside)
  simp only [leaving, here, missing, Option.getD_none]

theorem sorting_perm (tokens : List Token) :
    (sorting tokens).Perm ((List.range tokens.length).filter (plain tokens)) :=
  List.mergeSort_perm _ (notAfter tokens)

theorem sorting_ordered (tokens : List Token) :
    (sorting tokens).Pairwise fun i j => notAfter tokens i j := by
  have trans (i j k : Nat) (first : notAfter tokens i j) (second : notAfter tokens j k) :
      notAfter tokens i k := by
    simp only [notAfter, decide_eq_true_eq] at first second ⊢
    omega
  have total (i j : Nat) : notAfter tokens i j || notAfter tokens j i := by
    simp only [notAfter, Bool.or_eq_true, decide_eq_true_eq]
    omega
  exact List.pairwise_mergeSort trans total _

theorem ordered_unique {one two : List Nat} (same : one.Perm two)
    (ordered : one.Pairwise fun i j => notAfter tokens i j)
    (alsoOrdered : two.Pairwise fun i j => notAfter tokens i j) : one = two := by
  have antisymm (i j : Nat) (first : notAfter tokens i j) (second : notAfter tokens j i) : i = j := by
    simp only [notAfter, decide_eq_true_eq] at first second
    omega
  exact same.eq_of_pairwise (fun i j _ _ => antisymm i j) ordered alsoOrdered

theorem sorted_eq (order : List Nat)
    (all : order.Perm ((List.range tokens.length).filter (plain tokens)))
    (ordered : order.Pairwise fun i j => notAfter tokens i j) :
    order.filterMap (tokens[·]?) = sorted tokens := by
  have same := all.trans (sorting_perm tokens).symm
  exact congrArg (·.filterMap (tokens[·]?)) (ordered_unique same ordered (sorting_ordered tokens))

theorem frees_of_overtakes (overtaken : overtakes op token) : frees op token := by
  cases token with
  | operand n => cases overtaken
  | operator arriving => exact overtaken
  | paren side => cases overtaken

theorem Overtakes.releases (overtaken : Overtakes tokens op i j) : Releases tokens op i j := by
  obtain ⟨later, beside, yields⟩ := overtaken
  obtain ⟨token, here, overtakes⟩ := (Option.any_eq_true ..).mp yields
  exact ⟨later, beside, (Option.any_eq_true ..).mpr ⟨token, here, frees_of_overtakes overtakes⟩⟩

theorem Overtakes.within (overtaken : Overtakes tokens op i j) : j < tokens.length := by
  obtain ⟨_, here, _⟩ := (Option.any_eq_true ..).mp overtaken.2.2
  exact (List.getElem?_eq_some_iff.mp here).1

theorem traces_operand (here : tokens[i]? = some (.operand n)) : traces tokens i := by
  simp only [traces, here]

theorem traces_operator (here : tokens[i]? = some (.operator op)) :
    traces tokens i ↔ ∃ j, Overtakes tokens op i j := by
  simp only [traces, here, List.any_eq_true, List.mem_range, decide_eq_true_eq]
  exact ⟨fun ⟨j, _, overtaken⟩ => ⟨j, overtaken⟩,
    fun ⟨j, overtaken⟩ => ⟨j, overtaken.within, overtaken⟩⟩

end Yard
end ShuntingYard
