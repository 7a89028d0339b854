import Console.Error
import Console.Files
import Console.Text.Blank
import Console.Text.Lines

/-!
# The history of commands

The lines that were entered, oldest first. A history has a bound on its length; blank lines and
immediate repetitions are left out.

* `History.add`, `History.setMaxLen`;
* `History.toText`, `History.ofText`: as a text with one entry a line;
* `History.save`, `History.load`: as a file.
-/

namespace Console

open Text

/-- The lines that were entered. -/
structure History where
  /-- The lines, the oldest first. -/
  entries : List String
  /-- The most entries it keeps. -/
  maxLen : Nat
  deriving DecidableEq, Repr

namespace History

/-- The bound of a history that is given none. -/
def defaultLen : Nat := 100

/-- A history without entries. -/
def empty (maxLen : Nat := defaultLen) : History := ⟨[], maxLen⟩

/-- Adds a line without its outer blanks, unless it is blank or repeats the newest entry. The oldest
entry goes if the history is full. -/
def add (h : History) (line : String) : History :=
  let line := trim line
  if line.isEmpty || h.maxLen == 0 || h.entries.getLast? == some line then h
  else if h.entries.length == h.maxLen then { h with entries := h.entries.tail ++ [line] }
  else { h with entries := h.entries ++ [line] }

/-- Changes the bound; the oldest entries go if there are too many. -/
def setMaxLen (h : History) (maxLen : Nat) : History :=
  ⟨h.entries.drop (h.entries.length - maxLen), maxLen⟩

/-- The number of entries. -/
def size (h : History) : Nat := h.entries.length

/-- The entries, each with a line feed after it. -/
def toText (h : History) : String := String.join (h.entries.map (· ++ "\n"))

/-- The history of the lines of a text. -/
def ofText (maxLen : Nat) (text : String) : History :=
  (lines text.toList).foldl (fun h line => h.add (String.ofList line)) (empty maxLen)

/-- Reads a history from a file. A file that is missing holds none. -/
def load (fs : Files) (path : String) (maxLen : Nat) : Except Error History :=
  match fs.read path with
  | .missing => .ok (empty maxLen)
  | .directory | .closed => .error (.file .history path)
  | .bytes bytes =>
    match Utf8.decode bytes with
    | none => .error (.file .history path)
    | some text => .ok (ofText maxLen text)

/-- Writes a history to a file, with the directories above it. -/
def save (h : History) (fs : Files) (path : String) : Except Error Unit × Files :=
  let (made, fs) := fs.makeDirectories path
  match if made then fs.write path (Utf8.encode h.toText) else none with
  | none => (.error (.file .history path), fs)
  | some fs => (.ok (), fs)

end History

end Console
