import Console.Shell.Basic

/-!
# Dispatching a line

* `Reading`, `Shell.read`: what a line asks for: one command with its arguments, or a report that it
  is not recognised or ambiguous;
* `Reading.conduct`: what its handler does, or the report;
* `Shell.dispatch`: does that.
-/

namespace Console

namespace Report

/-- The report on a line that no command fits. -/
def unrecognized : String := "% Unrecognized command\n\n"

/-- The report on a line that more than one command fits. -/
def ambiguous (line : String) : String := "% Ambiguous command: \"" ++ line ++ "\"\n\n"

/-- The report on a command that failed in its own words. -/
def failed (text : String) : String := "% " ++ text ++ "\n\n"

end Report

/-- What a line asks for. -/
inductive Reading (σ : Type) where
  | unrecognized
  | ambiguous
  | call (handler : Handler σ) (args : List Value)

namespace Shell

variable {σ : Type}

/-- What a line asks for. -/
def read (s : Shell σ) (line : String) : Reading σ :=
  match parse line with
  | none => .unrecognized
  | some fragments =>
    match expand s.root fragments false with
    | [] => .unrecognized
    | [e] =>
      match e.last?.bind CommandTree.handler with
      | none => .unrecognized
      | some handler => .call handler e.arguments
    | _ => .ambiguous

end Shell

/-- Writes a report; the shell goes on. -/
def Report.conduct {σ : Type} (text : String) (world : σ) : Conduct σ :=
  .print text world (.finish (.ok .continue) world)

/-- What is done about a line that asks for this. -/
def Reading.conduct {σ : Type} (line : String) (world : σ) : Reading σ → Conduct σ
  | .unrecognized => Report.conduct Report.unrecognized world
  | .ambiguous => Report.conduct (Report.ambiguous line) world
  | .call handler args => handler.respond ⟨line, args⟩ world

/-- Does what a line asks for. -/
def Shell.dispatch {σ : Type} (s : Shell σ) (line : String) (world : σ) (sink : Sink) : Reply σ :=
  ((s.read line).conduct line world).run sink

end Console
