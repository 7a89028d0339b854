/-!
# Blank characters

The characters with the Unicode property `White_Space`, and trimming by them.

* `isBlank`: the property, as a table of ranges;
* `trimStart`, `trimEnd`, `trim`: a text without its outer blanks.
-/

namespace Console.Text

/-- The code points with the property `White_Space`, as closed ranges in ascending order. -/
def blankRanges : List (Nat × Nat) :=
  [(0x09, 0x0D), (0x20, 0x20), (0x85, 0x85), (0xA0, 0xA0), (0x1680, 0x1680), (0x2000, 0x200A),
    (0x2028, 0x2029), (0x202F, 0x202F), (0x205F, 0x205F), (0x3000, 0x3000)]

/-- A blank character. -/
def isBlank (c : Char) : Bool :=
  blankRanges.any fun r => decide (r.1 ≤ c.toNat) && decide (c.toNat ≤ r.2)

/-- There are 25 blank characters. -/
example : (blankRanges.map fun r => r.2 + 1 - r.1).sum = 25 := rfl

/-- The characters from the first one that is not blank. -/
def trimStart (cs : List Char) : List Char := cs.dropWhile isBlank

/-- The characters up to the last one that fails `p`. -/
def dropEndWhile (p : Char → Bool) (cs : List Char) : List Char :=
  (cs.reverse.dropWhile p).reverse

/-- The characters up to the last one that is not blank. -/
def trimEnd (cs : List Char) : List Char := dropEndWhile isBlank cs

/-- A text without its outer blanks. -/
def trim (s : String) : String := String.ofList (trimEnd (trimStart s.toList))

/-- A text ends in a blank. -/
def endsBlank (s : String) : Bool := s.toList.getLast?.any isBlank

end Console.Text
