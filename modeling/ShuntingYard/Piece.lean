import ShuntingYard.Decimal.Reading
import ShuntingYard.Provider

namespace ShuntingYard

-- The characters with the Unicode property White_Space, by code point, ends included.
def blankRanges : List (Nat × Nat) :=
  [(0x09, 0x0d), (0x20, 0x20), (0x85, 0x85), (0xa0, 0xa0), (0x1680, 0x1680), (0x2000, 0x200a),
   (0x2028, 0x2029), (0x202f, 0x202f), (0x205f, 0x205f), (0x3000, 0x3000)]

def isBlank (c : Char) : Bool :=
  blankRanges.any fun range => range.1 ≤ c.toNat && c.toNat ≤ range.2

inductive Piece where
  | operand (value : Number)
  | operator (op : Operator)
  | paren (side : Side)
  | blank
  | stray (c : Char)
  deriving DecidableEq

def Directory.operator? (directory : Directory σ) (c : Char) (s : σ) : Option Operator × σ :=
  let found := directory.find c s
  (found.1.bind fun provider => provider.create c, found.2)

namespace Piece

-- A character that is neither blank nor the start of a number. A provider may own any of these,
-- a parenthesis too.
def ofSymbol (c : Char) : Option Operator → Piece
  | some op => operator op
  | none =>
    if c = '(' then paren .left
    else if c = ')' then paren .right
    else stray c

structure Cut (σ : Type) where
  piece : Piece
  rest : List Char
  state : σ

-- The piece at the front of a text. Only a character that `ofSymbol` has to judge is looked up.
def next (directory : Directory σ) (c : Char) (rest : List Char) (s : σ) : Cut σ :=
  match Decimal.read? (c :: rest) with
  | some (n, left) => ⟨operand n, left, s⟩
  | none =>
    if isBlank c then ⟨blank, rest, s⟩
    else
      let found := directory.operator? c s
      ⟨ofSymbol c found.1, rest, found.2⟩

theorem next_shorter (directory : Directory σ) (c : Char) (rest : List Char) (s : σ) :
    (next directory c rest s).rest.length ≤ rest.length := by
  unfold next
  split
  · rename_i read
    exact Decimal.read?_shorter read
  · split <;> simp

end Piece
end ShuntingYard
