import Console.History
import Console.Text.Blank

/-!
# Editing a line

A line is edited at its end, one key at a time, with the help of an assistant that completes words
and describes lines, and of the history.

* `Key`, `KeyPress`: what is pressed;
* `Assistant`: what the editor asks of a shell;
* `LineState`: the line, and where in the history it is; `LineState.press`: one key;
* `currentWord`, `commonPrefix`.
-/

namespace Console

open Text

/-! ## Keys -/

/-- The keys. -/
inductive Key where
  | enter
  | tab
  | backspace
  | up
  | down
  | char (c : Char)
  /-- A key that the editor has no use for. -/
  | other
  deriving DecidableEq, Repr

/-- A key, and whether it is pressed together with the control key. -/
structure KeyPress where
  key : Key
  control : Bool := false
  deriving DecidableEq, Repr

/-- What is to be done after a key. -/
inductive Action where
  /-- Nothing that can be seen has changed. -/
  | ignore
  /-- Paint the line again. -/
  | redraw
  /-- Write a text below the line, and paint the line again. -/
  | display (text : String)
  /-- Give the line up, and start a new one. -/
  | discard
  /-- The line is done. -/
  | submit (line : String)
  /-- There are no more lines. -/
  | endOfInput
  deriving DecidableEq, Repr

/-- What the editor asks for while a line is typed. -/
structure Assistant where
  /-- The words that a word at the end of a line may stand for. -/
  complete : (line word : String) → List String
  /-- Help for a line, if it can be had. -/
  describe : (line : String) → Option String

/-! ## Words -/

/-- The word at the end of a line, which is empty if the line ends in a blank. -/
def currentWord (line : String) : String :=
  String.ofList (line.toList.reverse.takeWhile fun c => !isBlank c).reverse

/-- The longest text with which two texts begin. -/
def sharedPrefix : List Char → List Char → List Char
  | a :: as, b :: bs => if a = b then a :: sharedPrefix as bs else []
  | _, _ => []

/-- The longest text with which all texts begin; without any text it is empty. -/
def commonPrefix : List String → String
  | [] => ""
  | s :: ss => String.ofList ((ss.map String.toList).foldl sharedPrefix s.toList)

/-! ## The line -/

/-- The line that is edited. -/
structure LineState where
  buffer : String
  /-- The place in the history; its size while the line is fresh. -/
  place : Nat
  /-- The fresh line, kept while the history is walked. -/
  draft : String
  deriving DecidableEq, Repr

namespace LineState

/-- A fresh line. -/
def fresh (h : History) : LineState := ⟨"", h.size, ""⟩

/-- A line whose last word is replaced. -/
def replaceWord (s : LineState) (replacement : String) : LineState :=
  let kept := s.buffer.toList.take (s.buffer.length - (currentWord s.buffer).length)
  { s with buffer := String.ofList kept ++ replacement }

/-- Completes the last word: by its only completion and a space, or else as far as all completions
agree; where they agree on no more than is typed, they are shown. -/
def complete (s : LineState) (a : Assistant) : Action × LineState :=
  let word := currentWord s.buffer
  match a.complete s.buffer word with
  | [] => (.ignore, s)
  | [only] => (.redraw, s.replaceWord (only ++ " "))
  | words =>
    let shared := commonPrefix words
    if word.utf8ByteSize < shared.utf8ByteSize then (.redraw, s.replaceWord shared)
    else (.display ("  ".intercalate words ++ "\n"), s)

/-- Goes to a place in the history, or back to the fresh line. -/
def goTo (s : LineState) (h : History) (place : Nat) : LineState :=
  let draft := if s.place = h.size then s.buffer else s.draft
  ⟨h.entries[place]?.getD draft, place, draft⟩

/-- Goes to the entry before. -/
def up (s : LineState) (h : History) : Action × LineState :=
  if s.place = 0 then (.ignore, s) else (.redraw, s.goTo h (s.place - 1))

/-- Goes to the entry after. -/
def down (s : LineState) (h : History) : Action × LineState :=
  if h.size ≤ s.place then (.ignore, s) else (.redraw, s.goTo h (s.place + 1))

/-- What a key does. -/
def press (s : LineState) (h : History) (a : Assistant) (k : KeyPress) : Action × LineState :=
  match k.key, k.control with
  | .enter, _ => (.submit s.buffer, { s with buffer := "" })
  | .char 'c', true => (.discard, { s with buffer := "", place := h.size })
  | .char 'd', true => (if s.buffer.isEmpty then .endOfInput else .ignore, s)
  | .char 'u', true => (.redraw, { s with buffer := "" })
  | .char '?', _ =>
    match a.describe s.buffer with
    | some text => (.display text, s)
    | none => (.ignore, s)
  | .tab, _ => s.complete a
  | .backspace, _ =>
    if s.buffer.isEmpty then (.ignore, s)
    else (.redraw, { s with buffer := String.ofList s.buffer.toList.dropLast })
  | .up, _ => s.up h
  | .down, _ => s.down h
  | .char c, false => (.redraw, { s with buffer := s.buffer.push c })
  | .char _, true => (.ignore, s)
  | .other, _ => (.ignore, s)

end LineState

end Console
