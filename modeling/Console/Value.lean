/-!
# Values

What a typed fragment stands for: a word, or an integer of 64 bits.

* `Value.text`: how a value is shown;
* `Value.compare`: integers in their order, then words by code point.
-/

namespace Console

/-- What a typed fragment stands for. -/
inductive Value where
  | integer (n : Int64)
  | word (text : String)
  deriving DecidableEq

namespace Value

/-- The word, if it is one. -/
def word? : Value → Option String
  | .word text => some text
  | .integer _ => none

/-- The integer, if it is one. -/
def integer? : Value → Option Int64
  | .integer n => some n
  | .word _ => none

/-- A value as it is shown. -/
def text : Value → String
  | .integer n => toString n.toInt
  | .word text => text

/-- Integers come before words. -/
protected def compare : Value → Value → Ordering
  | .integer m, .integer n => Ord.compare m.toInt n.toInt
  | .integer _, .word _ => .lt
  | .word _, .integer _ => .gt
  | .word s, .word t => Ord.compare s t

instance : Ord Value := ⟨Value.compare⟩

/-- The values in ascending order, equal ones kept in their order. -/
def sort (vs : List Value) : List Value := vs.mergeSort fun v w => (compare v w).isLE

end Value

end Console
