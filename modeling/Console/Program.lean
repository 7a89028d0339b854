import Console.Arguments
import Console.Router
import Console.Shell.Run
import Console.Usage

/-!
# The program

The whole run of the router console: the arguments, the settings, and the lines of the input.

* `Program.settingsPath`: the file that a run reads its settings from;
* `Program.run`: what a run writes, and its exit code.
-/

namespace Console.Program

/-- What a run leaves. -/
structure Result where
  exitCode : Nat
  output : String
  errors : String

/-- The text of an error in the arguments, or of the help that they ask for. -/
def argumentText : ArgumentError → String
  | .unknownArgument => "error: unexpected argument found\n\n" ++ Usage.call
  | .missingValue => "error: a value is required but none was supplied\n\n" ++ Usage.call
  | .repeated => "error: an argument cannot be used multiple times\n\n" ++ Usage.call
  | .unexpectedValue => "error: unexpected value found\n\n" ++ Usage.call
  | .help full => if full then Usage.full else Usage.brief

/-- The file that the settings are read from. -/
def settingsPath (home : String) (a : Arguments) : String := Settings.pathOf home a.configPath

/-- Runs the console on some input. -/
def console (settings : Settings) (input : List UInt8) : Result :=
  match Router.exec View.self settings.hostname with
  | .error e => ⟨1, "", e.message ++ "\n"⟩
  | .ok shell =>
    let ending := shell.run (.start input (Device.named settings.hostname))
    let output := ending.session.sink.written
    match ending.result with
    | .ok () => ⟨0, output, ""⟩
    | .error e => ⟨1, output, e.message ++ "\n"⟩

/-- Runs the program. `contents` is what the settings are read from. -/
def run (home : String) (contents : String → Contents) (args : List String)
    (input : List UInt8) : Result :=
  match Arguments.read args with
  | .error (.help full) => ⟨0, argumentText (.help full), ""⟩
  | .error e => ⟨2, "", argumentText e⟩
  | .ok a =>
    let path := settingsPath home a
    match Settings.ofContents path (contents path) with
    | .error e => ⟨1, "", e.message ++ "\n"⟩
    | .ok settings => console (a.apply settings) input

end Console.Program
