/-!
# The characters of a document

A document is read as a list of cells, each a character with its place. Line breaks are of one form,
and a mark stands at the end.

* `Cell`, `Cell.ofText`;
* the classes of characters: `isBreak`, `isBlank`, `isAllowed`, `isNameChar`.
-/

namespace Console.Yaml

/-- Stands after the last character. It cannot occur in a document. -/
def endMark : Char := '\x00'

/-- A character with its place. -/
structure Cell where
  char : Char
  line : Nat
  column : Nat
  /-- The number of bytes before it. -/
  index : Nat

/-- A line break. -/
def isBreak (c : Char) : Bool :=
  c == '\r' || c == '\n' || c == '\u0085' || c == '\u2028' || c == '\u2029'

/-- A space or a tab. -/
def isBlank (c : Char) : Bool := c == ' ' || c == '\t'

/-- A line break or the end. -/
def isLineEnd (c : Char) : Bool := isBreak c || c == endMark

/-- A blank, a line break or the end. -/
def isGap (c : Char) : Bool := isBlank c || isLineEnd c

/-- A character that may occur in a document. -/
def isAllowed (c : Char) : Bool :=
  let n := c.toNat
  n == 0x09 || n == 0x0A || n == 0x0D || (0x20 ≤ n && n ≤ 0x7E) || n == 0x85 ||
    (0xA0 ≤ n && n ≤ 0xD7FF) || (0xE000 ≤ n && n ≤ 0xFFFD) || 0x10000 ≤ n

/-- Says how a text is written as bytes, and belongs to no token. -/
def byteOrderMark : Char := '\uFEFF'

/-- A character of the name of an anchor. -/
def isNameChar (c : Char) : Bool := c.isAlphanum || c == '_' || c == '-'

/-- A bracket or a comma of a flow collection. -/
def isFlowMark (c : Char) : Bool := c == ',' || c == '[' || c == ']' || c == '{' || c == '}'

namespace Cell

/-- The cells of a text that begins at a place. -/
def layOut (line column index : Nat) : List Char → List Cell
  | [] => [⟨endMark, line, column, index⟩]
  | '\r' :: '\n' :: cs => ⟨'\n', line, column, index⟩ :: layOut (line + 1) 0 (index + 2) cs
  | c :: cs =>
    if isBreak c then
      let char := if c == '\r' || c == '\u0085' then '\n' else c
      ⟨char, line, column, index⟩ :: layOut (line + 1) 0 (index + c.utf8Size) cs
    else ⟨c, line, column, index⟩ :: layOut line (column + 1) (index + c.utf8Size) cs

/-- The cells of a document, if all its characters may occur in one. -/
def ofText (cs : List Char) : Option (List Cell) :=
  if cs.all isAllowed then some (layOut 0 0 0 cs) else none

end Cell

/-- The cell `n` places on. -/
def cellAt (cells : List Cell) (n : Nat) : Cell := (cells.drop n).headD ⟨endMark, 0, 0, 0⟩

/-- The character `n` places on. -/
def charAt (cells : List Cell) (n : Nat) : Char := (cellAt cells n).char

/-- The column of the next character. -/
def column (cells : List Cell) : Nat := (cellAt cells 0).column

/-- Three equal marks at the start of a line, with a gap after them. -/
def isMarkerOf (mark : Char) (cells : List Cell) : Bool :=
  column cells == 0 && (List.range 3).all (fun n => charAt cells n == mark) &&
    isGap (charAt cells 3)

/-- A line that begins or ends a document. -/
def isDocumentMarker (cells : List Cell) : Bool := isMarkerOf '-' cells || isMarkerOf '.' cells

end Console.Yaml
