import Console.Yaml.Cell

/-!
# The text of scalars

The three ways to write a text: plain, between quotes, and as an indented block.

* `Gap`: blanks and line breaks inside a scalar, and what they fold to;
* `plain`, `quoted`, `block`: the text at some cells, and the cells after it. Each gives nothing
  where the text is malformed.
-/

namespace Console.Yaml

/-! ## Gaps -/

/-- Blanks and line breaks between two parts of a scalar. -/
structure Gap where
  /-- The blanks before the first line break. -/
  blanks : List Char := []
  /-- The first line break. -/
  first : List Char := []
  /-- The line breaks after the first. -/
  more : List Char := []
  /-- There was a line break. -/
  broken : Bool := false

namespace Gap

/-- What a gap folds to: a single line break becomes a space, of several the first is dropped, and
blanks in a line stay. -/
def fold (g : Gap) : List Char :=
  if !g.broken then g.blanks
  else if g.first = ['\n'] then (if g.more.isEmpty then [' '] else g.more)
  else g.first ++ g.more

/-- Reads on in a gap. After a line break no tab may stand before `indent`. -/
def read (indent : Nat) (g : Gap) : List Cell → Option (Gap × List Cell)
  | [] => some (g, [])
  | c :: cs =>
    if isBlank c.char then
      if g.broken then
        if c.char == '\t' && c.column < indent then none else g.read indent cs
      else { g with blanks := g.blanks ++ [c.char] }.read indent cs
    else if isBreak c.char then
      if g.broken then { g with more := g.more ++ [c.char] }.read indent cs
      else { g with blanks := [], first := [c.char], broken := true }.read indent cs
    else some (g, c :: cs)

end Gap

/-! ## Plain scalars -/

/-- The characters of a plain scalar up to a gap or to where it ends. -/
def plainPart (flow : Bool) : List Cell → Option (List Char × List Cell)
  | [] => some ([], [])
  | c :: cs =>
    let next := charAt cs 0
    if isGap c.char then some ([], c :: cs)
    else if flow && c.char == ':' && (isFlowMark next || next == '?') then none
    else if (c.char == ':' && isGap next) || (flow && isFlowMark c.char) then some ([], c :: cs)
    else (plainPart flow cs).map fun r => (c.char :: r.1, r.2)

/-- A plain scalar as it was read. -/
structure Plain where
  text : List Char
  /-- A line break follows the text. -/
  broken : Bool
  rest : List Cell

/-- Reads a plain scalar on from `text`, after a gap. Outside flow collections its lines stand at
column `indent` at least. -/
def plainFrom (flow : Bool) (indent : Nat) (text : List Char) (gap : Gap) (cells : List Cell) :
    Nat → Option Plain
  | 0 => none
  | fuel + 1 =>
    if isDocumentMarker cells || charAt cells 0 == '#' then some ⟨text, gap.broken, cells⟩
    else
      match plainPart flow cells with
      | none => none
      | some ([], rest) => some ⟨text, gap.broken, rest⟩
      | some (part, rest) =>
        let text := text ++ gap.fold ++ part
        match Gap.read indent {} rest with
        | none => none
        | some (gap, after) =>
          if gap.blanks.isEmpty && !gap.broken then some ⟨text, false, after⟩
          else if !flow && column after < indent then some ⟨text, gap.broken, after⟩
          else plainFrom flow indent text gap after fuel

/-- A plain scalar. -/
def plain (flow : Bool) (indent : Nat) (cells : List Cell) : Option Plain :=
  plainFrom flow indent [] {} cells (cells.length + 1)

/-! ## Quoted scalars -/

/-- The value of a digit to base sixteen. -/
def hexDigit? (c : Char) : Option Nat :=
  if c.isDigit then some (c.toNat - '0'.toNat)
  else if 'a' ≤ c ∧ c ≤ 'f' then some (c.toNat - 'a'.toNat + 10)
  else if 'A' ≤ c ∧ c ≤ 'F' then some (c.toNat - 'A'.toNat + 10)
  else none

/-- The number that some digits to base sixteen denote. -/
def hexNumber? (cs : List Char) : Option Nat :=
  cs.foldlM (fun n c => (hexDigit? c).map (16 * n + ·)) 0

/-- The character with a given code point. -/
def charOf? (n : Nat) : Option Char := if h : n.isValidChar then some (Char.ofNatAux n h) else none

/-- What stands after a backslash: a character by name, or the number of digits of its code. -/
def escape? : Char → Option (Char ⊕ Nat)
  | '0' => some (.inl '\x00')
  | 'a' => some (.inl '\x07')
  | 'b' => some (.inl '\x08')
  | 't' => some (.inl '\t')
  | '\t' => some (.inl '\t')
  | 'n' => some (.inl '\n')
  | 'v' => some (.inl '\x0b')
  | 'f' => some (.inl '\x0c')
  | 'r' => some (.inl '\r')
  | 'e' => some (.inl '\x1b')
  | ' ' => some (.inl ' ')
  | '"' => some (.inl '"')
  | '/' => some (.inl '/')
  | '\\' => some (.inl '\\')
  | 'N' => some (.inl '\u0085')
  | '_' => some (.inl '\u00a0')
  | 'L' => some (.inl '\u2028')
  | 'P' => some (.inl '\u2029')
  | 'x' => some (.inr 2)
  | 'u' => some (.inr 4)
  | 'U' => some (.inr 8)
  | _ => none

/-- Reads a quoted scalar on from `text`, up to the quote that ends it. -/
def quotedFrom (single : Bool) (text : List Char) (cells : List Cell) :
    Nat → Option (List Char × List Cell)
  | 0 => none
  | fuel + 1 =>
    let c := charAt cells 0
    let next := charAt cells 1
    if isDocumentMarker cells || c == endMark then none
    else if isBlank c || isBreak c then
      match Gap.read 0 {} cells with
      | none => none
      | some (gap, rest) => quotedFrom single (text ++ gap.fold) rest fuel
    else if single then
      if c == '\'' then
        if next == '\'' then quotedFrom single (text ++ ['\'']) (cells.drop 2) fuel
        else some (text, cells.drop 1)
      else quotedFrom single (text ++ [c]) (cells.drop 1) fuel
    else if c == '"' then some (text, cells.drop 1)
    else if c == '\\' then
      if isBreak next then
        match Gap.read 0 { broken := true } (cells.drop 2) with
        | none => none
        | some (gap, rest) => quotedFrom single (text ++ gap.fold) rest fuel
      else
        match escape? next with
        | none => none
        | some (.inl d) => quotedFrom single (text ++ [d]) (cells.drop 2) fuel
        | some (.inr n) =>
          let digits := (cells.drop 2).take n
          match (hexNumber? (digits.map Cell.char)).bind charOf? with
          | some d =>
            if digits.length < n then none
            else quotedFrom single (text ++ [d]) (cells.drop (2 + n)) fuel
          | none => none
    else quotedFrom single (text ++ [c]) (cells.drop 1) fuel

/-- A scalar between single or double quotes, from its first quote on. -/
def quoted (single : Bool) (cells : List Cell) : Option (List Char × List Cell) :=
  quotedFrom single [] (cells.drop 1) (cells.length + 1)

/-! ## Block scalars -/

/-- How the line breaks at the end of a block are kept. -/
inductive Chomping where
  | strip
  | clip
  | keep
  deriving DecidableEq

/-- What stands after the mark of a block: how to chomp, and by how much it is indented. -/
structure BlockHeader where
  chomping : Chomping := .clip
  indent : Option Nat := none

namespace BlockHeader

/-- The chomping that a character stands for. -/
def chomping? : Char → Option Chomping
  | '+' => some .keep
  | '-' => some .strip
  | _ => none

/-- Reads the header. A width of zero is refused. -/
def read (cells : List Cell) : Option (BlockHeader × List Cell) :=
  let width? (c : Char) : Option Nat := if c.isDigit then some (c.toNat - '0'.toNat) else none
  let a := charAt cells 0
  let b := charAt cells 1
  let (header, rest) : BlockHeader × List Cell :=
    match chomping? a, width? a with
    | some ch, _ =>
      match width? b with
      | some n => (⟨ch, some n⟩, cells.drop 2)
      | none => (⟨ch, none⟩, cells.drop 1)
    | none, some n =>
      match chomping? b with
      | some ch => (⟨ch, some n⟩, cells.drop 2)
      | none => (⟨.clip, some n⟩, cells.drop 1)
    | none, none => ({}, cells)
  if header.indent == some 0 then none
  else
    let rest := rest.dropWhile fun c => isBlank c.char
    let rest := if charAt rest 0 == '#' then rest.dropWhile fun c => !isLineEnd c.char else rest
    if !isLineEnd (charAt rest 0) then none
    else some (header, if isBreak (charAt rest 0) then rest.drop 1 else rest)

end BlockHeader

/-- Skips the indentation and the empty lines before a line of a block; `widest` is the widest
indentation so far. A tab is refused where indentation is expected. -/
def blockBreaks (indent : Option Nat) (widest : Nat) (breaks : List Char) (cells : List Cell) :
    Nat → Option (Nat × List Char × List Cell)
  | 0 => none
  | fuel + 1 =>
    let inside (c : Cell) : Bool := indent.all fun n => c.column < n
    let rest := cells.dropWhile fun c => inside c && c.char == ' '
    let c := cellAt rest 0
    let widest := max widest c.column
    if inside c && c.char == '\t' then none
    else if isBreak c.char then
      blockBreaks indent widest (breaks ++ [c.char]) (rest.drop 1) fuel
    else some (widest, breaks, rest)

/-- What has been read of a block. -/
structure BlockState where
  text : List Char := []
  /-- The break that ends the last line. -/
  leading : List Char := []
  /-- The breaks of the empty lines after it. -/
  trailing : List Char
  /-- The last line began with a blank. -/
  blank : Bool := false

/-- Reads the lines of a block that stand at column `indent`. Where lines are folded, a single break
between two lines that do not begin with a blank becomes a space. -/
def blockLines (folded : Bool) (indent : Nat) (s : BlockState) (cells : List Cell) :
    Nat → Option (BlockState × List Cell)
  | 0 => none
  | fuel + 1 =>
    let c := cellAt cells 0
    if c.column != indent || c.char == endMark then some (s, cells)
    else
      let blank := isBlank c.char
      let joint :=
        if folded && s.leading == ['\n'] && !s.blank && !blank then
          if s.trailing.isEmpty then [' '] else []
        else s.leading
      let line := (cells.takeWhile fun c => !isLineEnd c.char).map Cell.char
      let rest := cells.dropWhile fun c => !isLineEnd c.char
      let ends := isBreak (charAt rest 0)
      let leading := if ends then [charAt rest 0] else []
      match blockBreaks (some indent) 0 [] (if ends then rest.drop 1 else rest)
          (cells.length + 1) with
      | none => none
      | some (_, trailing, rest) =>
        blockLines folded indent ⟨s.text ++ joint ++ s.trailing ++ line, leading, trailing, blank⟩
          rest fuel

/-- A block scalar after its mark. `parent` is the column of the block that it stands in, if there
is one; its own lines stand further to the right. -/
def block (folded : Bool) (parent : Option Nat) (cells : List Cell) :
    Option (List Char × List Cell) := do
  let fuel := cells.length + 1
  let (header, cells) ← BlockHeader.read cells
  let given := header.indent.map fun n => (parent.getD 0) + n
  let (widest, trailing, rest) ← blockBreaks given 0 [] cells fuel
  let least := match parent with
    | some n => n + 1
    | none => 1
  let indent := given.getD (max widest least)
  let (s, rest) ← blockLines folded indent ⟨[], [], trailing, false⟩ rest fuel
  let text := match header.chomping with
    | .strip => s.text
    | .clip => s.text ++ s.leading
    | .keep => s.text ++ s.leading ++ s.trailing
  return (text, rest)

end Console.Yaml
