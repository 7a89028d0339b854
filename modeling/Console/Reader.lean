import Console.Error
import Console.History
import Console.Text.Lines

/-!
# Reading lines

A reader takes lines from bytes. A line ends at a line feed, which is not part of it, nor are the
carriage returns before it; the last line needs no line feed. A line that is not UTF-8 is refused.

* `Reader.readLine`: the next line;
* `Reader.unread_readLine_lt`: reading a line consumes bytes.
-/

namespace Console

open Text

/-- A source of lines, with the history of those that were commands. -/
structure Reader where
  /-- The bytes not read yet. -/
  unread : List UInt8
  history : History

namespace Reader

/-- The byte that ends a line. -/
def lineFeed : UInt8 := 10

/-- A reader of some bytes. -/
def ofBytes (bytes : List UInt8) : Reader := ⟨bytes, .empty⟩

/-- A character that is left out at the end of a line. -/
def isLineEnd (c : Char) : Bool := c == '\r' || c == '\n'

/-- The text of a line. -/
def lineText (bytes : List UInt8) : Except IoFailure String :=
  match Utf8.decode bytes with
  | some text => .ok (String.ofList (dropEndWhile isLineEnd text.toList))
  | none => .error .invalidText

/-- The next line, or nothing at the end of the input. -/
def readLine (r : Reader) : Except IoFailure (Option String) × Reader :=
  if r.unread.isEmpty then (.ok none, r)
  else
    ((lineText (r.unread.takeWhile (· != lineFeed))).map some,
      { r with unread := (r.unread.dropWhile (· != lineFeed)).tail })

/-- A line that was a command goes into the history. -/
def record (r : Reader) (line : String) : Reader := { r with history := r.history.add line }

theorem length_tail_dropWhile_lt {p : UInt8 → Bool} {bs : List UInt8} (h : bs ≠ []) :
    (bs.dropWhile p).tail.length < bs.length := by
  induction bs with
  | nil => exact absurd rfl h
  | cons b bs ih =>
    rw [List.dropWhile_cons]
    split
    · cases bs with
      | nil => simp
      | cons c cs =>
        have := ih (by simp)
        simp only [List.length_cons] at this ⊢
        omega
    · simp

theorem unread_readLine_le (r : Reader) : r.readLine.2.unread.length ≤ r.unread.length := by
  unfold readLine
  split
  · exact Nat.le_refl _
  · exact Nat.le_of_lt (length_tail_dropWhile_lt (by simp_all))

theorem unread_readLine_lt {r : Reader} {line : String} (h : r.readLine.1 = .ok (some line)) :
    r.readLine.2.unread.length < r.unread.length := by
  unfold readLine at h ⊢
  split at h
  · simp at h
  · rename_i hr
    rw [if_neg hr]
    exact length_tail_dropWhile_lt (by simpa using hr)

/-- The lines up to the end of the input or to the first that is refused, with its failure. -/
def lines (r : Reader) : List String × Option IoFailure :=
  match _ : r.readLine.1 with
  | .ok none => ([], none)
  | .error e => ([], some e)
  | .ok (some line) =>
    let rest := r.readLine.2.lines
    (line :: rest.1, rest.2)
termination_by r.unread.length
decreasing_by exact unread_readLine_lt ‹_›

end Reader

end Console
