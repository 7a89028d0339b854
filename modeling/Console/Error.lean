/-!
# Errors

What can go wrong, as causes, and the text each is reported with.

* `IoFailure`: reading or writing that fails;
* `Error`, `Error.message`.
-/

namespace Console

/-- Why a stream could not be read or written. -/
inductive IoFailure where
  /-- The output takes no more. -/
  | sinkClosed
  /-- The input is not UTF-8. -/
  | invalidText
  /-- A failure that a command reports in its own words. -/
  | reported (text : String)
  deriving DecidableEq, Repr

/-- The text of a failure. -/
def IoFailure.message : IoFailure → String
  | .sinkClosed => "sink closed"
  | .invalidText => "stream did not contain valid UTF-8"
  | .reported text => text

/-- The files that the console keeps. -/
inductive FileRole where
  | config
  | history
  deriving DecidableEq, Repr

/-- The word for a file in messages. -/
def FileRole.label : FileRole → String
  | .config => "config"
  | .history => "history"

/-- The causes of failure. -/
inductive Error where
  /-- The markers of a specification do not pair up. -/
  | unbalanced (spec : String)
  /-- A permutation group has more branches than are allowed. -/
  | tooManyBranches (spec : String) (branches limit : Nat)
  /-- Two trees to be merged have different top keywords. -/
  | rootMismatch (target source : String)
  /-- A command asks for a mode that its shell lacks. -/
  | unknownMode (name : String)
  /-- A command fails in its own words; the shell goes on. -/
  | command (text : String)
  /-- The settings file is no readable settings document. -/
  | yaml (path : String)
  /-- A file cannot be read or written. -/
  | file (role : FileRole) (path : String)
  /-- The console's own input or output fails. -/
  | stdio (cause : IoFailure)
  deriving DecidableEq, Repr

/-- The text of an error. -/
def Error.message : Error → String
  | .unbalanced spec => "Command specification `" ++ spec ++ "` is unbalanced"
  | .tooManyBranches spec branches limit =>
    "Command specification `" ++ spec ++ "` has a permutation group with " ++ toString branches ++
      " branches (limit is " ++ toString limit ++ ")"
  | .rootMismatch target source =>
    "Cannot merge tree rooted at `" ++ source ++ "` into tree rooted at `" ++ target ++ "`"
  | .unknownMode name => "No nested shell is registered as `" ++ name ++ "`"
  | .command text => text
  | .yaml path => "Error reading config file at `" ++ path ++ "`: not a settings document"
  | .file role path =>
    "IO error with " ++ role.label ++ " file at path `" ++ path ++ "`: cannot be read or written"
  | .stdio cause => "STDIO error: " ++ cause.message

end Console
