import Console.LineEditor
import Console.Shell.Dispatch
import Console.Text.Ascending

/-!
# Help and completion

Help for a line lists what the word being typed may stand for, or what may come next where the line
ends in a blank. It is written text by text, and ends at the first that is refused. Completion
offers the keywords among what help lists.

* `Shell.list`, `Shell.writeListing`: the listing of some readings; `Shell.describe`: help for a
  line;
* `Shell.complete`: the keywords that may stand for a word;
* `Shell.assistant`: both, for the line editor.
-/

namespace Console

open Text

/-- The order of listings: by the values, then by the keyword of the last node. -/
def Expansion.listedBefore {η : Type _} (d e : Expansion η) : Bool :=
  ((compare d.values e.values).then
    (compare (d.last?.map CommandTree.keyword) (e.last?.map CommandTree.keyword))).isLE

namespace Shell

variable {σ : Type}

/-- A line whose next word has not begun. -/
def wantsNext (line : String) : Bool := line.isEmpty || endsBlank line

/-! ## Help -/

/-- Writes the line itself and then that it is not recognised. -/
def disown (line : String) (sink : Sink) : Except Sink.Refusal Sink := do
  let sink ← sink.print (line ++ "\n")
  sink.print Report.unrecognized

/-- Writes a line for each of some readings that ends at a visible node. A command whose values are
`typed`, those of the whole line, gets none: it is told whether there is one, or was one before. -/
def list (next : Bool) (typed : Option (List Value)) :
    List (Expansion (Handler σ)) → Bool → Sink → Except Sink.Refusal (Bool × Sink)
  | [], complete, sink => .ok (complete, sink)
  | e :: es, complete, sink =>
    match e.steps.getLast? with
    | none => list next typed es complete sink
    | some s =>
      if s.node.hidden then list next typed es complete sink
      else if next && s.node.handler.isSome && typed == some e.values then
        list next typed es true sink
      else do
        let sink ← sink.print ("  " ++ s.value.text ++ "\t" ++ s.node.element.description ++ "\n")
        list next typed es complete sink

/-- Writes a listing of some readings, with a mark if a command is among them that has the values of
the whole line. -/
def writeListing (next : Bool) (typed : Option (List Value)) (es : List (Expansion (Handler σ)))
    (sink : Sink) : Except Sink.Refusal Sink := do
  let (complete, sink) ← list next typed es false sink
  let sink ← if complete then sink.print "  <cr>\n" else .ok sink
  sink.print "\n"

/-- Writes help for a line. -/
def describe (s : Shell σ) (line : String) (sink : Sink) : Except Sink.Refusal Sink :=
  let next := wantsNext line
  match parse line with
  | none => disown line sink
  | some fragments =>
    match expand s.root fragments next with
    | [] => disown line sink
    | candidates =>
      match if next then expand s.root fragments false else [] with
      | _ :: _ :: _ => sink.print (Report.ambiguous line)
      | exact =>
        writeListing next (exact.head?.map Expansion.values)
          (candidates.mergeSort Expansion.listedBefore) sink

/-! ## Completion -/

/-- The keywords that may stand for `word`, the last word of `line`, or come next if it is blank. -/
def complete (s : Shell σ) (line word : String) : List String :=
  match parse line with
  | none => []
  | some fragments =>
    let next := (trim word).isEmpty
    if !next && fragments.isEmpty then []
    else
      let place := if next then fragments.length else fragments.length - 1
      let nodes := (expand s.root fragments next).filterMap fun e => e.nodes[place]?
      ascending ((nodes.filter fun n => n.element.converter.isNone && !n.hidden).map
        CommandTree.keyword)

/-- Completion and help of a shell. -/
def assistant (s : Shell σ) : Assistant where
  complete := s.complete
  describe line :=
    match s.describe line {} with
    | .ok sink => some sink.written
    | .error _ => none

end Shell

end Console
