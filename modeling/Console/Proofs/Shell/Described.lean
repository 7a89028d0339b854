import Console.Proofs.Sink
import Console.Shell.Assistant

/-!
# What help tells

Help for a line reports it, or lists what may be typed and says whether the line is a command as it
stands. What it tells is found first, and then written in some texts.

* `Help`, `Shell.help`: what help tells about a line; `Help.texts`: the texts of it;
* `list_of_visible`, `list_eq`: the text for a reading, and those for some;
* **`describe_eq_writeAll`**: help for a line writes the texts of what it tells;
* **`mapError_describe`**: these texts as one.
-/

namespace Console

open Text

universe u

variable {η : Type u} {σ : Type}

/-- One line of help. -/
structure HelpEntry where
  /-- What may be typed. -/
  shown : String
  description : String
  deriving DecidableEq, Repr

/-- What is to be told about a line. -/
inductive Help where
  | unrecognized
  | ambiguous
  /-- What may be typed, and whether the line is a command as it stands. -/
  | listing (entries : List HelpEntry) (complete : Bool)
  deriving DecidableEq, Repr

namespace Expansion

/-- An expansion's line of help. -/
def entry (e : Expansion η) : Option HelpEntry :=
  e.steps.getLast?.map fun s => ⟨s.value.text, s.node.element.description⟩

/-- An expansion that help and completion may show. -/
def isVisible (e : Expansion η) : Bool := e.last?.any fun node => !node.hidden

/-- An expansion that is a command and has just these values. -/
def completes (e : Expansion η) (values : Option (List Value)) : Bool :=
  (e.last?.bind CommandTree.handler).isSome && values == some e.values

theorem completes_none (e : Expansion η) : e.completes none = false := by
  simp [completes]

end Expansion

/-- What is to be told about a line. -/
def Shell.help (s : Shell σ) (line : String) : Help :=
  let next := wantsNext line
  match parse line with
  | none => .unrecognized
  | some fragments =>
    match expand s.root fragments next with
    | [] => .unrecognized
    | candidates =>
      match if next then expand s.root fragments false else [] with
      | _ :: _ :: _ => .ambiguous
      | exact =>
        let typed := exact.head?.map Expansion.values
        let shown := (candidates.mergeSort Expansion.listedBefore).filter Expansion.isVisible
        .listing ((shown.filter fun e => !e.completes typed).filterMap Expansion.entry)
          (shown.any fun e => e.completes typed)

/-- The text of a line of help. -/
def HelpEntry.text (e : HelpEntry) : String := "  " ++ e.shown ++ "\t" ++ e.description ++ "\n"

/-- The texts in which help for a line is written. -/
def Help.texts (line : String) : Help → List String
  | unrecognized => [line ++ "\n", Report.unrecognized]
  | ambiguous => [Report.ambiguous line]
  | listing entries complete =>
    entries.map HelpEntry.text ++ ((if complete then ["  <cr>\n"] else []) ++ ["\n"])

namespace Shell

theorem disown_eq (line : String) (sink : Sink) :
    disown line sink = sink.writeAll (Help.unrecognized.texts line) := by
  unfold disown Help.texts
  cases h : sink.print (line ++ "\n") with
  | ok t =>
    rw [Sink.writeAll_cons_of_ok h, Sink.writeAll_singleton]
    rfl
  | error r =>
    rw [Sink.writeAll_cons_of_error h]
    rfl

section

variable {next : Bool} {typed : Option (List Value)} {e : Expansion (Handler σ)}

theorem list_of_not_visible (he : e.isVisible = false) (es : List (Expansion (Handler σ)))
    (complete : Bool) (sink : Sink) :
    list next typed (e :: es) complete sink = list next typed es complete sink := by
  rw [list]
  unfold Expansion.isVisible Expansion.last? at he
  cases hlast : e.steps.getLast? with
  | none => rfl
  | some s =>
    rw [hlast, Option.map_some, Option.any_some, Bool.not_eq_false'] at he
    exact if_pos he

theorem list_of_visible (h : next = false → typed = none) (he : e.isVisible = true)
    (es : List (Expansion (Handler σ))) (complete : Bool) (sink : Sink) :
    ∃ entry, e.entry = some entry ∧ list next typed (e :: es) complete sink =
      if e.completes typed then list next typed es true sink
      else sink.print entry.text >>= list next typed es complete := by
  rw [list]
  unfold Expansion.isVisible Expansion.last? at he
  cases hlast : e.steps.getLast? with
  | none =>
    rw [hlast] at he
    cases he
  | some s =>
    rw [hlast, Option.map_some, Option.any_some, Bool.not_eq_true'] at he
    have hentry : e.entry = some ⟨s.value.text, s.node.element.description⟩ := by
      rw [Expansion.entry, hlast, Option.map_some]
    have hcompletes : (next && s.node.handler.isSome && typed == some e.values) =
        e.completes typed := by
      cases next with
      | true => simp [Expansion.completes, Expansion.last?, hlast]
      | false => simp [h rfl, Expansion.completes_none]
    refine ⟨_, hentry, ?_⟩
    dsimp only
    rw [he, if_neg Bool.false_ne_true, hcompletes]
    rfl

end

theorem list_eq {next : Bool} {typed : Option (List Value)} (h : next = false → typed = none)
    (es : List (Expansion (Handler σ))) (complete : Bool) (sink : Sink) :
    let shown := es.filter Expansion.isVisible
    list next typed es complete sink =
      (sink.writeAll (((shown.filter fun e => !e.completes typed).filterMap Expansion.entry).map
        HelpEntry.text)).map fun sink => (complete || shown.any (·.completes typed), sink) := by
  intro shown
  induction es generalizing complete sink with
  | nil => simp [shown, list, Sink.writeAll_nil, Except.map]
  | cons e es ih =>
    by_cases hvisible : e.isVisible = true
    · obtain ⟨entry, hentry, hlist⟩ := list_of_visible h hvisible es complete sink
      rw [hlist]
      simp only [shown, List.filter_cons_of_pos hvisible, List.any_cons]
      by_cases hdone : e.completes typed = true
      · rw [if_pos hdone, ih true sink, hdone, List.filter_cons_of_neg (by simp [hdone])]
        simp only [Bool.true_or, Bool.or_true]
      · rw [if_neg hdone, List.filter_cons_of_pos (by simp [hdone]),
          List.filterMap_cons_some hentry, List.map_cons, Bool.eq_false_iff.mpr hdone,
          Bool.false_or]
        cases hwrite : sink.print entry.text with
        | ok t =>
          rw [Sink.writeAll_cons_of_ok hwrite]
          exact ih complete t
        | error r =>
          rw [Sink.writeAll_cons_of_error hwrite]
          rfl
    · rw [list_of_not_visible (Bool.eq_false_iff.mpr hvisible), ih complete sink]
      simp only [shown, List.filter_cons_of_neg hvisible]

theorem writeListing_eq {next : Bool} {typed : Option (List Value)}
    (h : next = false → typed = none) (es : List (Expansion (Handler σ))) (line : String)
    (sink : Sink) :
    writeListing next typed es sink = sink.writeAll ((Help.listing
      (((es.filter Expansion.isVisible).filter fun e => !e.completes typed).filterMap
        Expansion.entry)
      ((es.filter Expansion.isVisible).any (·.completes typed))).texts line) := by
  rw [writeListing, list_eq h, Help.texts, Sink.writeAll_append, Bool.false_or]
  cases sink.writeAll _ with
  | error r => rfl
  | ok t =>
    cases (es.filter Expansion.isVisible).any (·.completes typed) with
    | false => exact (t.writeAll_singleton "\n").symm
    | true =>
      have hend : Sink.writeAll ["\n"] = Sink.print "\n" :=
        funext fun t => t.writeAll_singleton "\n"
      change t.print "  <cr>\n" >>= Sink.print "\n" = t.writeAll (["  <cr>\n"] ++ ["\n"])
      rw [Sink.writeAll_append, Sink.writeAll_singleton, hend]

/-- **Help for a line writes the texts of what it tells.** -/
theorem describe_eq_writeAll (s : Shell σ) (line : String) (sink : Sink) :
    s.describe line sink = sink.writeAll ((s.help line).texts line) := by
  unfold describe help
  cases parse line with
  | none => exact disown_eq line sink
  | some fs =>
    dsimp only
    cases expand s.root fs (wantsNext line) with
    | nil => exact disown_eq line sink
    | cons d ds =>
      dsimp only
      have htyped : wantsNext line = false →
          (if wantsNext line then expand s.root fs false else []).head?.map Expansion.values =
            none := by
        intro hnext
        rw [hnext, if_neg Bool.false_ne_true, List.head?_nil, Option.map_none]
      generalize (if wantsNext line then expand s.root fs false else []) = exact at htyped ⊢
      rcases exact with _ | ⟨e, _ | ⟨e', rest⟩⟩
      · exact writeListing_eq htyped _ line sink
      · exact writeListing_eq htyped _ line sink
      · exact (Sink.writeAll_singleton sink _).symm

/-- **Help for a line as one text.** -/
theorem mapError_describe (s : Shell σ) (line : String) (sink : Sink) :
    (s.describe line sink).mapError Sink.Refusal.cause = sink.write (match s.help line with
      | .unrecognized => line ++ "\n" ++ "% Unrecognized command\n\n"
      | .ambiguous => "% Ambiguous command: \"" ++ line ++ "\"\n\n"
      | .listing entries complete =>
        String.join (entries.map fun e => "  " ++ e.shown ++ "\t" ++ e.description ++ "\n") ++
          (if complete then "  <cr>\n" else "") ++ "\n") := by
  have hne : (s.help line).texts line ≠ [] := by
    cases s.help line <;> simp [Help.texts]
  rw [describe_eq_writeAll, Sink.mapError_writeAll hne]
  cases s.help line with
  | unrecognized =>
    rw [Help.texts, String.join_cons, String.join_cons, String.join_nil, String.append_empty]
    rfl
  | ambiguous =>
    rw [Help.texts, String.join_cons, String.join_nil, String.append_empty]
    rfl
  | listing entries complete =>
    rw [Help.texts, String.join_append, String.join_append, ← String.append_assoc]
    cases complete <;> rfl

end Shell

end Console
