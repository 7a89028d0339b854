import Console.Handler
import Console.Shell.Basic
import Console.Text.Quoted

/-!
# Command sets

Commands that are loaded into a shell as one unit, and what is done once they are there.

* `Command`: a specification with its help, and the handler;
* `CommandSet`, `LoadAction`: commands, each specification once, and the actions after loading,
  which may load further sets;
* `CommandSet.add`.
-/

namespace Console

open Text

/-- A command as it is given. -/
structure Command (σ : Type) where
  spec : String
  /-- A text for each element of the specification, in order. -/
  help : List String
  /-- Left out of help and completion. -/
  hidden : Bool
  handler : Handler σ

mutual

/-- Commands that are loaded as one unit. -/
structure CommandSet (σ : Type) where
  /-- The commands, each specification once. -/
  commands : List (Command σ)
  /-- What is done once the commands are in the tree. -/
  onLoad : Option (List (LoadAction σ))

/-- What can be done after a set has been loaded. -/
inductive LoadAction (σ : Type) where
  /-- Report a failure. -/
  | fail (text : String)
  | setPrompt (prompt : String)
  | addMode (name : String) (shell : Shell σ)
  /-- Load one command. -/
  | register (command : Command σ)
  /-- Load another set. -/
  | load (set : CommandSet σ)
  /-- Show the shell to the world. -/
  | observe (look : Shell σ → σ → σ)

end

namespace CommandSet

variable {σ : Type}

/-- The set without commands. -/
def empty : CommandSet σ := ⟨[], none⟩

instance : Inhabited (CommandSet σ) := ⟨empty⟩

/-- Puts a command in place of the one with its specification, or else at the end. -/
def place (c : Command σ) : List (Command σ) → List (Command σ)
  | [] => [c]
  | d :: ds => if d.spec = c.spec then c :: ds else d :: place c ds

/-- Adds a command. A set has each specification once, where it was first added. -/
def add (c : Command σ) (set : CommandSet σ) : CommandSet σ :=
  ⟨place c set.commands, set.onLoad⟩

/-- The set of some commands, added in order. -/
def ofList (commands : List (Command σ)) (onLoad : Option (List (LoadAction σ)) := none) :
    CommandSet σ :=
  commands.foldl (fun set c => set.add c) ⟨[], onLoad⟩

/-- The number of commands. -/
def size (set : CommandSet σ) : Nat := set.commands.length

/-- A set that has no commands. -/
def isEmpty (set : CommandSet σ) : Bool := set.commands.isEmpty

/-- A summary of a set. -/
def summary (set : CommandSet σ) : String :=
  "CommandSet \x7b commands: [" ++
    ", ".intercalate (set.commands.map fun c => Quoted.quote c.spec) ++
    "], on_load: " ++ (if set.onLoad.isSome then "true" else "false") ++ " \x7d"

end CommandSet

/-- A summary of a handler. -/
def Handler.summary {σ : Type} (h : Handler σ) : String := "Handler(" ++ Quoted.quote h.name ++ ")"

end Console
