import Console.Settings

/-!
# Command line arguments

The arguments are read from left to right, and the first that is wrong decides the error. A value
that stands in an argument of its own is taken up when the next option is met or the line ends, so
an error in it shows only then.

* `Arguments`, `ArgumentError`;
* `Arguments.read`: the arguments, without the name of the program;
* `Arguments.apply`: settings with what the arguments override.
-/

namespace Console

/-- What the command line asks for. -/
structure Arguments where
  configPath : Option String := none
  hostname : Option String := none
  historyPath : Option String := none
  noHistory : Bool := false
  deriving DecidableEq, Repr

/-- Why a command line is not carried out. -/
inductive ArgumentError where
  | unknownArgument
  | missingValue
  | repeated
  | unexpectedValue
  /-- Help is asked for, in the full form or in the brief one. -/
  | help (full : Bool)
  deriving DecidableEq, Repr

/-- The options that take a value. -/
inductive ValueOption where
  | configPath
  | hostname
  | historyPath
  deriving DecidableEq, Repr

/-- The options. -/
inductive CommandOption where
  | value (o : ValueOption)
  | noHistory
  | help (full : Bool)
  deriving DecidableEq, Repr

namespace CommandOption

/-- The option of a long name. -/
def ofName : String → Option CommandOption
  | "config-path" => some (value .configPath)
  | "hostname" => some (value .hostname)
  | "history-path" => some (value .historyPath)
  | "no-history" => some noHistory
  | "help" => some (help true)
  | _ => none

/-- The option of a letter. -/
def ofLetter : Char → Option CommandOption
  | 'c' => some (value .configPath)
  | 'l' => some (value .historyPath)
  | 'h' => some (help false)
  | _ => none

end CommandOption

namespace Arguments

/-- The value of an option. -/
def get (a : Arguments) : ValueOption → Option String
  | .configPath => a.configPath
  | .hostname => a.hostname
  | .historyPath => a.historyPath

/-- Gives an option a value, unless it has one. -/
def set (a : Arguments) (o : ValueOption) (value : String) : Except ArgumentError Arguments :=
  if (a.get o).isSome then .error .repeated
  else
    .ok <| match o with
      | .configPath => { a with configPath := some value }
      | .hostname => { a with hostname := some value }
      | .historyPath => { a with historyPath := some value }

/-- What has been read of a command line. -/
structure Scan where
  arguments : Arguments := {}
  /-- The option that was met last, if its value stands or is to stand in the next argument. -/
  pending : Option (ValueOption × Option String) := none

namespace Scan

/-- Takes up the value of the option that was met last. -/
def settle (s : Scan) : Except ArgumentError Arguments :=
  match s.pending with
  | none => .ok s.arguments
  | some (_, none) => .error .missingValue
  | some (o, some value) => s.arguments.set o value

/-- Meets an option without a value. -/
def meet (s : Scan) (o : CommandOption) : Except ArgumentError Scan := do
  let a ← s.settle
  match o with
  | .value o => return ⟨a, some (o, none)⟩
  | .help full => .error (.help full)
  | .noHistory =>
    if a.noHistory then .error .repeated else return ⟨{ a with noHistory := true }, none⟩

/-- Meets an option with a value in the same argument. -/
def meetWith (s : Scan) (o : CommandOption) (value : String) : Except ArgumentError Scan :=
  match o with
  | .value o => do return ⟨← (← s.settle).set o value, none⟩
  | _ => .error .unexpectedValue

/-- Reads a long option, without its dashes. -/
def long (s : Scan) (cs : List Char) : Except ArgumentError Scan :=
  match CommandOption.ofName (String.ofList (cs.takeWhile (· != '='))) with
  | none => .error .unknownArgument
  | some o =>
    match cs.dropWhile (· != '=') with
    | [] => s.meet o
    | _ :: value => s.meetWith o (String.ofList value)

/-- Reads letters of options, without their dash. What follows the letter of an option that takes a
value is the value, less an equals sign in front. -/
def letters (s : Scan) : List Char → Except ArgumentError Scan
  | [] => .ok s
  | c :: cs =>
    match CommandOption.ofLetter c, cs with
    | none, _ => .error .unknownArgument
    | some (.value o), '=' :: value => s.meetWith (.value o) (String.ofList value)
    | some (.value o), [] => s.meet (.value o)
    | some (.value o), value => s.meetWith (.value o) (String.ofList value)
    | some o, rest => do (← s.meet o).letters rest

/-- Reads the arguments on from here. After two dashes no more options are read. -/
def run (s : Scan) : List String → Except ArgumentError Arguments
  | [] => s.settle
  | arg :: args =>
    match arg.toList, s.pending with
    | ['-', '-'], _ => if args.isEmpty then s.settle else .error .unknownArgument
    | '-' :: '-' :: cs, _ => do (← s.long cs).run args
    | '-' :: c :: cs, _ => do (← s.letters (c :: cs)).run args
    | _, some (o, none) => run { s with pending := some (o, some arg) } args
    | _, _ => .error .unknownArgument

end Scan

/-- Reads the arguments, without the name of the program. -/
def read (args : List String) : Except ArgumentError Arguments := ({} : Scan).run args

/-- Settings with what the arguments override. -/
def apply (a : Arguments) (s : Settings) : Settings :=
  { s with
    hostname := a.hostname.getD s.hostname
    historyPath := a.historyPath.getD s.historyPath
    saveHistory := s.saveHistory && !a.noHistory }

end Arguments

end Console
