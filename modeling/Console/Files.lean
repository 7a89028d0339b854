/-!
# Files

A file system as a value: a tree of files and directories, and a working directory. A path is read
from left to right; every part of it but the last has to be a directory. Names and paths have a
greatest length.

* `Item`, `Files`, `Contents`: what there is, and what a path leads to;
* `Files.read`, `Files.makeDirectories`, `Files.write`.
-/

namespace Console

/-- A file or a directory. -/
inductive Item where
  | file (bytes : List UInt8)
  | directory (entries : List (String × Item))

/-- The names on the way from a directory to a file or directory. -/
abbrev Place := List String

namespace Item

/-- It holds other items. -/
def isDirectory : Item → Bool
  | .directory _ => true
  | .file _ => false

/-- What is at a place below an item. -/
def at? : Place → Item → Option Item
  | [], i => some i
  | name :: rest, .directory entries => (entries.lookup name).bind (at? rest)
  | _ :: _, .file _ => none

/-- Puts an item at a place, in directories that are made where they are missing. -/
def put (new : Item) : Place → Item → Item
  | [], _ => new
  | name :: rest, .directory entries =>
    let old := (entries.lookup name).getD (.directory [])
    .directory ((name, put new rest old) :: entries.filter fun e => e.1 != name)
  | _ :: _, i => i

end Item

/-- Files and directories. -/
structure Files where
  top : Item
  /-- Where paths that do not begin with a slash are read from. -/
  working : Place

/-- What is found at a path. -/
inductive Contents where
  | missing
  | directory
  /-- A file that may not be read. -/
  | closed
  | bytes (bytes : List UInt8)
  deriving DecidableEq

namespace Files

/-- The most bytes in a name. -/
def maxName : Nat := 255

/-- The most bytes in a path. -/
def maxPath : Nat := 4095

/-- What is at a place. -/
def item? (fs : Files) (place : Place) : Option Item := fs.top.at? place

/-- A directory is at a place. -/
def isDirectory (fs : Files) (place : Place) : Bool := (fs.item? place).any Item.isDirectory

/-- Puts a file or a directory at a place. -/
def put (fs : Files) (place : Place) (item : Item) : Files :=
  { fs with top := Item.put item place fs.top }

/-- A text that can be used as a path. -/
def isPath (path : String) : Bool :=
  path.utf8ByteSize ≤ maxPath && !path.toList.contains '\x00'

/-- The parts of a path between its slashes. -/
def parts (path : String) : List String :=
  ((path.toList.splitBy fun c d => c != '/' && d != '/').filter fun cs => cs != ['/']).map
    String.ofList

/-- Where a path starts. -/
def start (fs : Files) (path : String) : Place :=
  if path.toList.head? == some '/' then [] else fs.working

/-- A path that can only lead to a directory. -/
def wantsDirectory (path : String) : Bool :=
  path.toList.getLast? == some '/' || (parts path).getLast? == some "." ||
    (parts path).getLast? == some ".."

/-- Takes one part of a path. -/
def enter (place : Place) (part : String) : Place :=
  if part = "." then place else if part = ".." then place.dropLast else place ++ [part]

/-- The place that a path leads to, if all its parts before the last are directories. -/
def walk (fs : Files) (place : Place) : List String → Option Place
  | [] => some place
  | part :: rest =>
    if fs.isDirectory place && part.utf8ByteSize ≤ maxName then walk fs (enter place part) rest
    else none

/-- The place of a path. -/
def place? (fs : Files) (path : String) : Option Place :=
  if path.isEmpty || !isPath path then none else fs.walk (fs.start path) (parts path)

/-- What is found at a path. -/
def read (fs : Files) (path : String) : Contents :=
  match (fs.place? path).bind fs.item? with
  | none => .missing
  | some (.directory _) => .directory
  | some (.file bytes) => if wantsDirectory path then .missing else .bytes bytes

/-! ## Directories above a path -/

/-- A path, from its last character on, without the slashes and dots after its last part. -/
def dropTail : List Char → List Char
  | '/' :: cs => dropTail cs
  | '.' :: '/' :: cs => dropTail cs
  | cs => cs

/-- The path of the directory that a path leads into. -/
def above (path : String) : String :=
  let part := dropTail path.toList.reverse
  String.ofList (dropTail (part.dropWhile (· != '/'))).reverse

/-- Makes the directories that are missing on the way along some parts, up to a file that stands
there or a name that is too long; tells whether there was none. -/
def makeAlong (fs : Files) (place : Place) : List String → Bool × Files
  | [] => (true, fs)
  | part :: rest =>
    let next := enter place part
    match fs.item? next with
    | some (.directory _) => fs.makeAlong next rest
    | some (.file _) => (false, fs)
    | none =>
      if part.utf8ByteSize ≤ maxName then (fs.put next (.directory [])).makeAlong next rest
      else (false, fs)

/-- Makes the directories above a path; tells whether they are there. -/
def makeDirectories (fs : Files) (path : String) : Bool × Files :=
  let above := above path
  if isPath above then fs.makeAlong (fs.start path) ((parts above).filter (· != "."))
  else (false, fs)

/-- Writes a file, if its directory is there and no directory stands in its place. -/
def write (fs : Files) (path : String) (bytes : List UInt8) : Option Files :=
  if wantsDirectory path then none
  else
    (fs.place? path).bind fun place =>
      if fs.isDirectory place || !fs.isDirectory place.dropLast then none
      else some (fs.put place (.file bytes))

end Files

end Console
