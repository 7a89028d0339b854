import Console.Error
import Console.Files
import Console.Text.Lines
import Console.Yaml.Document

/-!
# Settings

The settings of the console, as they are by default and as a file gives them. The file is a mapping;
entries that are no settings are ignored, and one that is given twice is refused.

* `Settings`, `Settings.defaults`;
* `expandHome`: a path with the home directory put for a tilde;
* `Settings.ofDocument`, `Settings.load`: settings from a document and from a file.
-/

namespace Console

open Yaml

/-- The settings. -/
structure Settings where
  hostname : String
  historyPath : String
  historyMaxLen : Nat
  saveHistory : Bool
  deriving DecidableEq, Repr

/-- A path in which a tilde that is the first part is the home directory. -/
def expandHome (home path : String) : String :=
  match path.toList with
  | ['~'] => home
  | '~' :: '/' :: rest => home ++ String.ofList ('/' :: rest)
  | _ => path

namespace Settings

/-- The settings where no file gives them. -/
def defaults : Settings := ⟨"iscli", "~/.iscli/history", 100, true⟩

/-- Where the settings are kept, unless another path is given. -/
def defaultPath : String := "~/.iscli/config.yml"

/-- Where the settings are kept. -/
def pathOf (home : String) (given : Option String) : String :=
  expandHome home (given.getD defaultPath)

/-- Where the history is kept. -/
def expandedHistoryPath (s : Settings) (home : String) : String := expandHome home s.historyPath

/-! ## Values -/

/-- The tag of a kind of scalar. -/
def tagOf (kind : String) : Option (List UInt8) :=
  some (Text.Utf8.encode ("tag:yaml.org,2002:" ++ kind))

/-- A scalar that may stand for a value of a kind: it is plain, or a literal block with the tag of
that kind. -/
def standsFor (kind : String) (s : Scalar) : Bool :=
  s.style == .plain || (s.style == .literal && s.tag == tagOf kind)

/-- A truth value. -/
def bool? (s : Scalar) : Option Bool :=
  if !standsFor "bool" s then none
  else if ["true", "True", "TRUE"].contains s.text then some true
  else if ["false", "False", "FALSE"].contains s.text then some false
  else none

/-- The value of a digit to a base of at most sixteen. -/
def digit? (base : Nat) (c : Char) : Option Nat := (hexDigit? c).filter (· < base)

/-- The number that some digits denote, if there are any. -/
def number? (base : Nat) (cs : List Char) : Option Nat :=
  if cs.isEmpty then none else cs.foldlM (fun n c => (digit? base c).map (base * n + ·)) 0

/-- A number of 64 bits. -/
def bounded? (base : Nat) (cs : List Char) : Option Nat :=
  (number? base cs).filter (· < UInt64.size)

/-- A natural number of 64 bits, with a plus sign or without. It is written in decimal without
leading zeros, or after `0x`, `0o` or `0b`. -/
def natural? (s : Scalar) : Option Nat :=
  if !standsFor "int" s then none
  else
    let cs := s.text.toList
    let cs := if cs.head? == some '+' then cs.tail else cs
    match cs with
    | '0' :: 'x' :: rest => bounded? 16 rest
    | '0' :: 'o' :: rest => bounded? 8 rest
    | '0' :: 'b' :: rest => bounded? 2 rest
    | '0' :: d :: rest => if (d :: rest).all Char.isDigit then none else bounded? 10 cs
    | cs => bounded? 10 cs

/-- A scalar that gives no settings as a document: it is empty, even if it has a tag, or says so. -/
def isNothing (s : Scalar) : Bool :=
  let null := ["null", "Null", "NULL", "~"].contains s.text
  s.style == .plain &&
    if s.tag == tagOf "null" then null else s.text.isEmpty || (s.tag.isNone && null)

/-! ## Reading settings -/

/-- What a file gives. -/
structure Given where
  hostname : Option String := none
  historyPath : Option String := none
  historyMaxLen : Option Nat := none
  saveHistory : Option Bool := none

/-- The settings, with the default for what is not given. -/
def Given.toSettings (g : Given) : Settings :=
  ⟨g.hostname.getD defaults.hostname, g.historyPath.getD defaults.historyPath,
    g.historyMaxLen.getD defaults.historyMaxLen, g.saveHistory.getD defaults.saveHistory⟩

/-- Takes a value for a setting that has none yet. -/
def once {α : Type} (old : Option α) (new : Option α) : Option (Option α) :=
  match old, new with
  | none, some a => some (some a)
  | _, _ => none

/-- Adds one entry of the mapping of a document. A key has to be a scalar, and so has the value of a
setting. -/
def Given.add (d : Document) (g : Given) (entry : Node × Node) : Option Given := do
  let key ← d.scalar? entry.1
  let value := d.scalar? entry.2
  match key.text with
  | "hostname" => return { g with hostname := ← once g.hostname (value.map Scalar.text) }
  | "history_path" =>
    return { g with historyPath := ← once g.historyPath (value.map Scalar.text) }
  | "history_max_len" =>
    return { g with historyMaxLen := ← once g.historyMaxLen (value.bind natural?) }
  | "save_history" => return { g with saveHistory := ← once g.saveHistory (value.bind bool?) }
  | _ => return g

/-- The settings that a document gives. -/
def ofDocument (d : Document) : Option Settings :=
  match d.root with
  | .scalar s => if isNothing s then some defaults else none
  | .mapping entries => (entries.foldlM (Given.add d) {}).map Given.toSettings
  | _ => none

/-- The settings in a file. One that is missing gives the defaults. -/
def ofContents (path : String) : Contents → Except Error Settings
  | .missing => .ok defaults
  | .directory => .error (.yaml path)
  | .closed => .error (.file .config path)
  | .bytes bytes =>
    match (Document.ofBytes bytes).bind (·.elim (some defaults) ofDocument) with
    | some s => .ok s
    | none => .error (.yaml path)

/-- Reads settings from a file. -/
def load (fs : Files) (path : String) : Except Error Settings := ofContents path (fs.read path)

end Settings

end Console
