import Console.Text.Lines
import Console.Yaml.Scalar

/-!
# Tokens of a document

A document is divided into tokens. Where it is laid out by indentation, tokens for the start and end
of each block are put in; and where a colon shows that what stands before it is a key, a token for
that is put before it.

* `Token`;
* `Lexer`: what has been read, with the open blocks and the places where a key may begin;
* `Token.ofCells`: the tokens of a document, up to the end of the stream; nothing where the document
  is malformed.
-/

namespace Console.Yaml

/-- How a scalar is written. -/
inductive Style where
  | plain
  | quoted
  | literal
  | folded
  deriving DecidableEq

/-- A tag as it is written: a handle and the rest. The rest is given by its bytes, which need not be
those of a text. -/
structure TagName where
  handle : String
  suffix : List UInt8
  deriving DecidableEq

/-- The tokens. -/
inductive Token where
  | version (major minor : Nat)
  | tagHandle (handle : String) (expansion : List UInt8)
  | documentStart
  | documentEnd
  | streamEnd
  | blockSequenceStart
  | blockMappingStart
  | blockEnd
  | flowSequenceStart
  | flowSequenceEnd
  | flowMappingStart
  | flowMappingEnd
  | blockEntry
  | flowEntry
  | key
  | value
  | alias (name : String)
  | anchor (name : String)
  | tag (name : TagName)
  | scalar (style : Style) (text : String)
  deriving DecidableEq

/-! ## Names -/

/-- The characters at the start that satisfy `p`, and the cells after them. -/
def spanChars (p : Char → Bool) (cells : List Cell) : List Char × List Cell :=
  ((cells.takeWhile fun c => p c.char).map Cell.char, cells.dropWhile fun c => p c.char)

/-- The cells after the blanks at the start. -/
def dropBlanks (cells : List Cell) : List Cell := cells.dropWhile fun c => isBlank c.char

/-- The name of an anchor. -/
def anchorName? (cells : List Cell) : Option (String × List Cell) :=
  let (name, rest) := spanChars isNameChar cells
  let c := charAt rest 0
  let ends := isGap c || c == '?' || c == ':' || c == ',' || c == ']' || c == '}' || c == '%' ||
    c == '@' || c == '\x60'
  if name.isEmpty || !ends then none else some (String.ofList name, rest)

/-- The handle of a tag, from its exclamation mark on. A handle that is given a meaning by a
directive ends in an exclamation mark too. -/
def handle? (directive : Bool) (cells : List Cell) : Option (String × List Cell) :=
  if charAt cells 0 != '!' then none
  else
    let (name, rest) := spanChars isNameChar (cells.drop 1)
    if charAt rest 0 == '!' then some (String.ofList ('!' :: name ++ ['!']), rest.drop 1)
    else if directive && !name.isEmpty then none
    else some (String.ofList ('!' :: name), rest)

/-- A character of a tag other than a percent sign. -/
def isTagChar (verbatim : Bool) (c : Char) : Bool :=
  isNameChar c || [';', '/', '?', ':', '@', '&', '=', '+', '$', '.', '!', '~', '*', '\'', '(',
    ')'].contains c || (verbatim && (c == ',' || c == '[' || c == ']'))

/-- The byte that is written with a percent sign and two digits. -/
def escapedByte? (cells : List Cell) : Option UInt8 :=
  if charAt cells 0 == '%' then
    (hexNumber? [charAt cells 1, charAt cells 2]).map Nat.toUInt8
  else none

/-- The number of bytes of a character by its first byte. -/
def byteCount? (b : UInt8) : Option Nat :=
  if b < 0x80 then some 1
  else if b &&& 0xE0 == 0xC0 then some 2
  else if b &&& 0xF0 == 0xE0 then some 3
  else if b &&& 0xF8 == 0xF0 then some 4
  else none

/-- A character that is written as escaped bytes. -/
def escapedChar? (cells : List Cell) : Option (List UInt8 × List Cell) := do
  let first ← escapedByte? cells
  let n ← byteCount? first
  let more ← (List.range (n - 1)).mapM fun i => escapedByte? (cells.drop (3 * (i + 1)))
  if more.all fun b => b &&& 0xC0 == 0x80 then return (first :: more, cells.drop (3 * n)) else none

/-- The rest of a tag, as bytes. -/
def tagRest? (verbatim : Bool) (bytes : List UInt8) (cells : List Cell) :
    Nat → Option (List UInt8 × List Cell)
  | 0 => none
  | fuel + 1 =>
    let c := charAt cells 0
    if c == '%' then
      match escapedChar? cells with
      | some (more, rest) => tagRest? verbatim (bytes ++ more) rest fuel
      | none => none
    else if isTagChar verbatim c then
      tagRest? verbatim (bytes ++ Text.Utf8.encode (String.singleton c)) (cells.drop 1) fuel
    else some (bytes, cells)

/-- What counts of a tag's rest: it goes up to the first byte that is zero. -/
def upToZero (bytes : List UInt8) : List UInt8 := bytes.takeWhile (· != 0)

/-- A tag, from its exclamation mark on. -/
def tag? (flow : Bool) (cells : List Cell) : Option (TagName × List Cell) := do
  let fuel := cells.length + 1
  let (name, rest) ←
    if charAt cells 1 == '<' then do
      let (bytes, rest) ← tagRest? true [] (cells.drop 2) fuel
      if bytes.isEmpty || charAt rest 0 != '>' then none
      else some (TagName.mk "" (upToZero bytes), rest.drop 1)
    else do
      let (handle, rest) ← handle? false cells
      if handle.length > 1 && handle.toList.getLast? == some '!' then do
        let (bytes, rest) ← tagRest? false [] rest fuel
        if bytes.isEmpty then none else some (TagName.mk handle (upToZero bytes), rest)
      else do
        let start := Text.Utf8.encode (String.ofList handle.toList.tail)
        let (bytes, rest) ← tagRest? false start rest fuel
        let suffix := upToZero bytes
        some (if suffix.isEmpty then ⟨"", Text.Utf8.encode "!"⟩ else ⟨"!", suffix⟩, rest)
  let c := charAt rest 0
  if isGap c || (flow && c == ',') then return (name, rest) else none

/-! ## Directives -/

/-- A part of a version number, of nine digits at most. -/
def versionPart? (cells : List Cell) : Option (Nat × List Cell) :=
  let (digits, rest) := spanChars Char.isDigit cells
  if digits.isEmpty || 9 < digits.length then none
  else some (digits.foldl (fun n c => 10 * n + (c.toNat - '0'.toNat)) 0, rest)

/-- A directive, after its percent sign. -/
def directive? (cells : List Cell) : Option (Token × List Cell) := do
  let (name, rest) := spanChars isNameChar cells
  if !isGap (charAt rest 0) then none
  let (token, rest) ← match String.ofList name with
    | "YAML" => do
      let (major, rest) ← versionPart? (dropBlanks rest)
      if charAt rest 0 != '.' then none
      let (minor, rest) ← versionPart? (rest.drop 1)
      some (Token.version major minor, rest)
    | "TAG" => do
      let (handle, rest) ← handle? true (dropBlanks rest)
      if !isBlank (charAt rest 0) then none
      let (bytes, rest) ← tagRest? true [] (dropBlanks rest) (cells.length + 1)
      if bytes.isEmpty || !isGap (charAt rest 0) then none
      some (Token.tagHandle handle (upToZero bytes), rest)
    | _ => none
  let rest := dropBlanks rest
  let rest := if charAt rest 0 == '#' then rest.dropWhile fun c => !isLineEnd c.char else rest
  if !isLineEnd (charAt rest 0) then none
  return (token, if isBreak (charAt rest 0) then rest.drop 1 else rest)

/-! ## The lexer -/

/-- A place where a key may begin. -/
structure KeyPlace where
  /-- The number of tokens before it. -/
  place : Nat
  /-- Nothing but a key can stand here. -/
  required : Bool
  cell : Cell

/-- What has been read of a document. -/
structure Lexer where
  cells : List Cell
  tokens : Array Token
  /-- The columns of the open blocks, the innermost first. -/
  indents : List Nat
  /-- Where a key may have begun, outside flow collections and in each open one, the innermost
  first. -/
  keys : List (Option KeyPlace)
  /-- A key may begin here. -/
  keyAllowed : Bool

namespace Lexer

/-- A lexer that has read nothing. -/
def start (cells : List Cell) : Lexer := ⟨cells, #[], [], [none], true⟩

/-- A flow collection is open. -/
def inFlow (l : Lexer) : Bool := 1 < l.keys.length

/-- The column of the innermost block. -/
def indent? (l : Lexer) : Option Nat := l.indents.head?

/-- Adds a token. -/
def push (l : Lexer) (t : Token) : Lexer := { l with tokens := l.tokens.push t }

/-- Adds a token, skips some cells, and says whether a key may follow. -/
def pushMark (l : Lexer) (t : Token) (width : Nat) (keyAllowed : Bool) : Lexer :=
  { l with tokens := l.tokens.push t, cells := l.cells.drop width, keyAllowed }

/-- Skips blanks, comments and line breaks before a token, and byte order marks at the start of a
line. A tab does not count as a blank where a key may begin. -/
def skipGap (flow : Bool) (keyAllowed : Bool) (cells : List Cell) :
    Nat → Bool × List Cell
  | 0 => (keyAllowed, cells)
  | fuel + 1 =>
    let marked := column cells == 0 && charAt cells 0 == byteOrderMark
    let rest := if marked then cells.drop 1 else cells
    let rest := rest.dropWhile fun c => c.char == ' ' || ((flow || !keyAllowed) && c.char == '\t')
    let rest := if charAt rest 0 == '#' then rest.dropWhile fun c => !isLineEnd c.char else rest
    if isBreak (charAt rest 0) then skipGap flow (keyAllowed || !flow) (rest.drop 1) fuel
    else (keyAllowed, rest)

/-- Gives up the places of keys that are too far back: on an earlier line, or by more than 1024
bytes. -/
def dropStale (l : Lexer) : Option Lexer := do
  let here := cellAt l.cells 0
  let keys ← l.keys.mapM fun k =>
    match k with
    | none => some none
    | some p =>
      if p.cell.line < here.line || p.cell.index + 1024 < here.index then
        if p.required then none else some none
      else some (some p)
  return { l with keys }

/-- Gives up the place of a key in the innermost collection. -/
def dropKey (l : Lexer) : Option Lexer :=
  match l.keys with
  | some p :: ks => if p.required then none else some { l with keys := none :: ks }
  | _ => some l

/-- Notes that a key may begin here. -/
def saveKey (l : Lexer) : Option Lexer :=
  if l.keyAllowed then do
    let l ← l.dropKey
    let cell := cellAt l.cells 0
    let place := ⟨l.tokens.size, !l.inFlow && l.indent? == some cell.column, cell⟩
    return { l with keys := some place :: l.keys.tail }
  else some l

/-- Opens a block at a column, unless one is open there: its token is put before the token at
`place`. -/
def openBlock (l : Lexer) (column place : Nat) (t : Token) : Lexer :=
  if l.inFlow || l.indent?.any (column ≤ ·) then l
  else
    { l with
      indents := column :: l.indents
      tokens := l.tokens.insertIdxIfInBounds place t }

/-- Closes the blocks to the right of a column; without a column, all. -/
def closeBlocks (l : Lexer) (column : Option Nat) : Lexer :=
  if l.inFlow then l
  else
    let open? (i : Nat) : Bool := column.all (· < i)
    { l with
      tokens := l.tokens ++ ((l.indents.takeWhile open?).map fun _ => Token.blockEnd).toArray
      indents := l.indents.dropWhile open? }

/-- Reads a directive or the marker of a document: all blocks end before it. -/
def atMargin (l : Lexer) : Option Lexer := do
  let l ← (l.closeBlocks none).dropKey
  return { l with keyAllowed := false }

/-- Reads the mark of a block entry or of a key. -/
def blockMark (l : Lexer) (t blockStart : Token) (keyAllowed : Bool) : Option Lexer := do
  if !l.inFlow && !l.keyAllowed then none
  let l := l.openBlock (column l.cells) l.tokens.size blockStart
  let l ← l.dropKey
  return l.pushMark t 1 keyAllowed

/-- Reads a colon: what began at the place of a key is one, or else the key is empty. -/
def valueMark (l : Lexer) : Option Lexer :=
  match l.keys with
  | some p :: ks =>
    let l := { l with tokens := l.tokens.insertIdxIfInBounds p.place .key, keys := none :: ks }
    let l := l.openBlock p.cell.column p.place .blockMappingStart
    some (l.pushMark .value 1 false)
  | _ =>
    if !l.inFlow && !l.keyAllowed then none
    else
      let l := l.openBlock (column l.cells) l.tokens.size .blockMappingStart
      some (l.pushMark .value 1 !l.inFlow)

/-- Adds a token that may be a key, and goes on after it. -/
def pushContent (l : Lexer) (read : Lexer → Option (Token × List Cell)) : Option Lexer := do
  let l ← l.saveKey
  let (t, cells) ← read l
  return { l with tokens := l.tokens.push t, cells, keyAllowed := false }

/-- Opens a flow collection. -/
def openFlow (l : Lexer) (t : Token) : Option Lexer := do
  let l ← l.saveKey
  return { l.pushMark t 1 true with keys := none :: l.keys }

/-- Closes a flow collection. -/
def closeFlow (l : Lexer) (t : Token) : Option Lexer := do
  let l ← l.dropKey
  let l := l.pushMark t 1 false
  return if l.inFlow then { l with keys := l.keys.tail } else l

/-- Reads a plain scalar. After a line break a key may follow. -/
def readPlain (l : Lexer) : Option Lexer := do
  let l ← l.saveKey
  let indent := match l.indent? with
    | some n => n + 1
    | none => 0
  let p ← plain l.inFlow indent l.cells
  let token := Token.scalar .plain (String.ofList p.text)
  return { l with tokens := l.tokens.push token, cells := p.rest, keyAllowed := p.broken }

/-- A plain scalar may begin here. -/
def plainBegins (l : Lexer) : Bool :=
  let c := charAt l.cells 0
  let next := charAt l.cells 1
  let special := ['-', '?', ':', ',', '[', ']', '{', '}', '#', '&', '*', '!', '|', '>', '\'', '"',
    '%', '@', '\x60']
  !(isGap c || special.contains c) || (c == '-' && !isBlank next) ||
    (!l.inFlow && (c == '?' || c == ':') && !isGap next)

/-- Reads one token. -/
def step (l : Lexer) : Option Lexer := do
  let (keyAllowed, cells) := skipGap l.inFlow l.keyAllowed l.cells (l.cells.length + 1)
  let l ← { l with keyAllowed, cells }.dropStale
  let here := cellAt l.cells 0
  let next := charAt l.cells 1
  if here.char == endMark then
    let l ← l.atMargin
    return l.push .streamEnd
  let l := l.closeBlocks (some here.column)
  if here.column == 0 && here.char == '%' then
    let l ← l.atMargin
    let (t, cells) ← directive? (l.cells.drop 1)
    return { l.push t with cells }
  if isMarkerOf '-' l.cells then return (← l.atMargin).pushMark .documentStart 3 false
  if isMarkerOf '.' l.cells then return (← l.atMargin).pushMark .documentEnd 3 false
  match here.char with
  | '[' => l.openFlow .flowSequenceStart
  | '{' => l.openFlow .flowMappingStart
  | ']' => l.closeFlow .flowSequenceEnd
  | '}' => l.closeFlow .flowMappingEnd
  | ',' => return (← l.dropKey).pushMark .flowEntry 1 true
  | '*' => l.pushContent fun l => (anchorName? (l.cells.drop 1)).map fun r => (.alias r.1, r.2)
  | '&' => l.pushContent fun l => (anchorName? (l.cells.drop 1)).map fun r => (.anchor r.1, r.2)
  | '!' => l.pushContent fun l => (tag? l.inFlow l.cells).map fun r => (.tag r.1, r.2)
  | '\'' => l.pushContent fun l =>
    (quoted true l.cells).map fun r => (.scalar .quoted (String.ofList r.1), r.2)
  | '"' => l.pushContent fun l =>
    (quoted false l.cells).map fun r => (.scalar .quoted (String.ofList r.1), r.2)
  | c =>
    if c == '-' && isGap next then l.blockMark .blockEntry .blockSequenceStart true
    else if c == '?' && (l.inFlow || isGap next) then
      l.blockMark .key .blockMappingStart !l.inFlow
    else if c == ':' && (l.inFlow || isGap next) then l.valueMark
    else if (c == '|' || c == '>') && !l.inFlow then
      let l ← l.dropKey
      let (text, cells) ← block (c == '>') l.indent? (l.cells.drop 1)
      let style := if c == '>' then Style.folded else .literal
      return { l with
        tokens := l.tokens.push (.scalar style (String.ofList text)), cells, keyAllowed := true }
    else if l.plainBegins then l.readPlain
    else none

/-- Reads tokens up to the end of the stream. -/
def run (l : Lexer) : Nat → Option (List Token)
  | 0 => none
  | fuel + 1 =>
    match l.step with
    | none => none
    | some l =>
      if l.tokens.back? == some .streamEnd then some l.tokens.toList else l.run fuel

end Lexer

/-- The tokens of a document. -/
def Token.ofCells (cells : List Cell) : Option (List Token) :=
  (Lexer.start cells).run (cells.length + 1)

end Console.Yaml
