import Console.Value

/-!
# Converters

A keyword of a specification is a literal word or a typed place. A place has a converter, which
decides whether a typed fragment fits and turns it into a value. Integers are written in ASCII
digits. Any number of digits is accepted, leading zeros too; a value that does not fit its width is
refused, never wrapped.

* `Decimal.ofDigits`: the number that a run of digits denotes;
* `Decimal.natural?`, `Decimal.signed?`: digits only, and digits after at most one sign;
* `Decimal.bounded?`, `Decimal.int64?`: numbers in the range of 64 bits;
* `Converter.resolve`: the converter that a keyword names;
* `Converter.apply`: the value of a fragment at a place.
-/

namespace Console.Text.Decimal

/-- The number denoted by `cs`, read with base ten. -/
def ofDigits (cs : List Char) : Nat := cs.foldl (fun n c => 10 * n + (c.toNat - '0'.toNat)) 0

/-- A non-empty run of ASCII digits. -/
def natural? (cs : List Char) : Option Nat :=
  if cs.isEmpty || !cs.all Char.isDigit then none else some (ofDigits cs)

/-- A non-empty run of ASCII digits after at most one sign. -/
def signed? : List Char → Option Int
  | '+' :: cs => (natural? cs).map Int.ofNat
  | '-' :: cs => (natural? cs).map fun n => -Int.ofNat n
  | cs => (natural? cs).map Int.ofNat

/-- The integers of 64 bits. -/
def Fits (n : Int) : Prop := Int64.minValue.toInt ≤ n ∧ n ≤ Int64.maxValue.toInt

instance (n : Int) : Decidable (Fits n) := inferInstanceAs (Decidable (_ ∧ _))

/-- A number in the range of 64 bits. -/
def bounded? (n : Int) : Option Int64 := if Fits n then some (Int64.ofInt n) else none

/-- A signed number in the range of 64 bits. -/
def int64? (cs : List Char) : Option Int64 := (signed? cs).bind bounded?

end Console.Text.Decimal

namespace Console

open Text

/-- The kinds of typed place. -/
inductive Converter where
  /-- Takes any text as a word. -/
  | variable
  /-- Takes an integer between two bounds, both included. -/
  | range (first last : Int64)
  deriving DecidableEq

namespace Converter

/-- A letter of a variable's name. -/
def isCapital (c : Char) : Bool := decide ('A' ≤ c) && decide (c ≤ 'Z')

/-- A bound of a range: digits alone, in 64 bits. -/
def bound? (cs : List Char) : Option Int64 :=
  (Decimal.natural? cs).bind fun n => Decimal.bounded? (Int.ofNat n)

/-- The bounds of `<first-last>`, divided at the first dash. -/
def range? : List Char → Option Converter
  | '<' :: cs =>
    if cs.getLast? = some '>' then
      let inner := cs.dropLast
      match inner.dropWhile (· != '-') with
      | '-' :: rest => do
        let first ← bound? (inner.takeWhile (· != '-'))
        let last ← bound? rest
        return range first last
      | _ => none
    else none
  | _ => none

/-- The converter that a keyword names: a variable is written in capital letters, a range as
`<first-last>`, and any other keyword is a literal word. -/
def resolve (keyword : String) : Option Converter :=
  let cs := keyword.toList
  if !cs.isEmpty && cs.all isCapital then some .variable else range? cs

/-- The value of a fragment at a place, if it fits. -/
def apply : Converter → String → Option Value
  | .variable, fragment => some (.word fragment)
  | .range first last, fragment =>
    (Decimal.int64? fragment.toList).bind fun n =>
      if first ≤ n ∧ n ≤ last then some (.integer n) else none

end Converter

end Console
