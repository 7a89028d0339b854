import Console.Expansion
import Console.Handler
import Console.Text.Blank
import Console.Text.Words

/-!
# Shells

A shell has a command tree, a prompt, and shells of its own that its commands may enter by name.

* `Shell`, `Shell.empty`;
* `Shell.mode?`, `Shell.addMode`: the shells below a shell;
* `Shell.at?`, `Shell.put`: the shell at the end of a path of names;
* `Shell.parse`: the fragments of a line.
-/

namespace Console

open Text

/-- A shell whose commands act on a world of type `σ`. -/
structure Shell (σ : Type) where
  root : CommandTree (Handler σ)
  prompt : String
  modes : List (String × Shell σ)

namespace Shell

variable {σ : Type}

/-- A shell without commands. -/
def empty (prompt : String) : Shell σ := ⟨.root, prompt, []⟩

instance : Inhabited (Shell σ) := ⟨empty ""⟩

/-- The shell that is entered by a name. -/
def mode? (s : Shell σ) (name : String) : Option (Shell σ) := s.modes.lookup name

/-- Puts a shell under a name in a list of modes. -/
def placeMode (name : String) (mode : Shell σ) : List (String × Shell σ) → List (String × Shell σ)
  | [] => [(name, mode)]
  | (n, m) :: rest => if n = name then (name, mode) :: rest else (n, m) :: placeMode name mode rest

/-- A shell with a mode of this name, in place of the one that it had. -/
def addMode (s : Shell σ) (name : String) (mode : Shell σ) : Shell σ :=
  { s with modes := placeMode name mode s.modes }

/-- The shell at the end of a path of names. -/
def at? (s : Shell σ) : List String → Option (Shell σ)
  | [] => some s
  | name :: names => (s.mode? name).bind (·.at? names)

/-- A shell in which the one at the end of a path of names is replaced. -/
def put (s : Shell σ) (new : Shell σ) : List String → Shell σ
  | [] => new
  | name :: names =>
    match s.mode? name with
    | none => s
    | some mode => s.addMode name (mode.put new names)

/-- The fragments of a line, or nothing if the line cannot be split. -/
def parse (line : String) : Option (List String) := Words.split (trim line)

end Shell

end Console
