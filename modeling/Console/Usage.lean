/-!
# Usage

The text that tells how the program is called. It has a brief form, with a line for each option, and
a full form, in which an option may have several paragraphs.

* `Usage.Entry`: what is told about an option;
* `Usage.brief`, `Usage.full`: the two forms.
-/

namespace Console.Usage

/-- What is told about an option. -/
structure Entry where
  letter : Option Char := none
  name : String
  /-- What stands for the value of the option, if it takes one. -/
  value : Option String := none
  summary : String
  /-- The paragraphs of the full form, if they differ from the summary. -/
  paragraphs : List String := [summary]

/-- How the option is written. -/
def Entry.form (e : Entry) : String :=
  (match e.letter with
    | some c => String.ofList ['-', c, ',', ' ']
    | none => "    ") ++
  "--" ++ e.name ++
  (match e.value with
    | some v => " <" ++ v ++ ">"
    | none => "")

/-- The options of the program. -/
def entries : List Entry :=
  [ { letter := some 'c', name := "config-path", value := some "CONFIG_PATH"
      summary := "Path to the configuration file YAML"
      paragraphs := ["Path to the configuration file YAML.",
        "If not provided, defaults to `~/.iscli/config.yml`."] },
    { name := "hostname", value := some "HOSTNAME"
      summary := "Name shown in the prompt, overriding the configuration file" },
    { letter := some 'l', name := "history-path", value := some "HISTORY_PATH"
      summary := "Path to the file that stores the command history"
      paragraphs := ["Path to the file that stores the command history.",
        "If not provided, defaults to `~/.iscli/history`."] },
    { name := "no-history"
      summary := "Do not write the command history back when the session ends" },
    { letter := some 'h', name := "help"
      summary := "Print help (see more with '--help')"
      paragraphs := ["Print help (see a summary with '-h')"] } ]

/-- The line that shows the form of a call. -/
def call : String := "Usage: iscli [OPTIONS]\n"

/-- What stands above the options. -/
def heading (about : String) : String := about ++ "\n\n" ++ call ++ "\nOptions:\n"

/-- A text with blanks after it up to a width. -/
def padded (width : Nat) (s : String) : String :=
  s ++ String.ofList (List.replicate (width - s.length) ' ')

/-- The brief form: the summaries stand in a column of their own. -/
def brief : String :=
  let width := (entries.map fun e => e.form.length).foldl max 0
  heading "Command-line arguments for the iscli console" ++
    String.join (entries.map fun e => "  " ++ padded width e.form ++ "  " ++ e.summary ++ "\n")

/-- The full form: the paragraphs stand below the form of the option. -/
def full : String :=
  let indent := String.ofList (List.replicate 10 ' ')
  let entry (e : Entry) : String :=
    "  " ++ e.form ++ "\n" ++ indent ++ ("\n" ++ indent ++ "\n" ++ indent).intercalate e.paragraphs
  heading "Command-line arguments for the iscli console." ++
    "\n\n".intercalate (entries.map entry) ++ "\n"

end Console.Usage
