import Console.Proofs.Shell.TypedArguments
import Console.Proofs.Tree.Compose
import Console.Proofs.Tree.Mapped

/-!
# What a dispatch does

A line is dispatched to the handler at the end of its only reading, or else it is reported. To see
which handlers are called, and how often, each handler of a shell is replaced by one that does the
same and also records the call.

* `Handler.recording`, `Shell.recording`, `Shell.calls`: the calls that a dispatch makes;
  **`dispatch_recording`**: recording them changes nothing else;
* `CommandTree.forks_iff`: fragments have more than one expansion if the first of them that has not
  just one match has more;
* `Shell.LeadsTo`, `Shell.Forks`: lines with one match for each fragment and a handler at the end,
  and lines with more than one match for some fragment;
* `Shell.Runs`, `Shell.Reports`: a dispatch that is one call, and one that only writes a report;
* **`Shell.dispatch_iff`**: which lines are dispatched in which way.
-/

namespace Console

universe u

variable {η : Type u} {σ τ : Type}

/-! ## Reports -/

/-- What is left when the shell writes a text and goes on. A text that is not written ends that. -/
def Reply.telling (text : String) (world : σ) (sink : Sink) : Reply σ :=
  match sink.write text with
  | .ok after => ⟨.ok .continue, world, after⟩
  | .error e => ⟨.error (.stdio e), world, sink⟩

theorem Report.run_conduct (text : String) (world : σ) (sink : Sink) :
    (Report.conduct text world).run sink = .telling text world sink := by
  rw [conduct, Conduct.print, Conduct.run, Reply.telling]
  cases sink.write text <;> rfl

theorem Report.toList_ambiguous (line : String) : (ambiguous line).toList =
    "% Ambiguous command: \"".toList ++ line.toList ++ "\"\n\n".toList :=
  String.toList_append.trans (congrArg (· ++ _) String.toList_append)

theorem Report.ambiguous_ne_unrecognized (line : String) : ambiguous line ≠ unrecognized := by
  intro h
  have hend : '"' ∈ "\"\n\n".toList := by decide +kernel
  have hquote : '"' ∈ (ambiguous line).toList := by
    rw [toList_ambiguous]
    exact List.mem_append_right _ hend
  have hnot : '"' ∉ unrecognized.toList := by decide +kernel
  exact hnot (h ▸ hquote)

theorem Reply.telling_inj {text text' : String} {world : σ}
    (h : telling text world {} = telling text' world {}) : text = text' := by
  have hwritten := congrArg (fun reply => reply.sink.written) h
  simpa [telling, Sink.write_unlimited] using hwritten

/-! ## Recording calls -/

/-- A conduct in a world that is seen through `f`. -/
def Conduct.mapWorld (f : σ → τ) : Conduct σ → Conduct τ
  | finish result world => finish result (f world)
  | emit text next => emit text fun written => (next written).mapWorld f

theorem Conduct.run_mapWorld (f : σ → τ) (c : Conduct σ) (sink : Sink) :
    (c.mapWorld f).run sink =
      ⟨(c.run sink).result, f (c.run sink).world, (c.run sink).sink⟩ := by
  induction c generalizing sink with
  | finish result world => rfl
  | emit text next ih =>
    rw [mapWorld, run, run]
    cases sink.write text with
    | ok sink => exact ih _ sink
    | error e => exact ih _ sink

/-- A call of a handler. -/
structure Call (σ : Type) where
  handler : Handler σ
  invocation : Invocation

/-- A handler that does the same, and records each call of it behind those before. -/
def Handler.recording (h : Handler σ) : Handler (σ × List (Call σ)) where
  name := h.name
  serial := h.serial
  respond i world := (h.respond i world.1).mapWorld fun w => (w, world.2 ++ [⟨h, i⟩])

/-- A shell with the same commands, whose handlers record their calls. It has no modes, which a
dispatch does not enter. -/
def Shell.recording (s : Shell σ) : Shell (σ × List (Call σ)) :=
  ⟨s.root.map Handler.recording, s.prompt, []⟩

/-- The calls that a dispatch makes, in order. -/
def Shell.calls (s : Shell σ) (line : String) (world : σ) (sink : Sink) : List (Call σ) :=
  (s.recording.dispatch line (world, []) sink).world.2

namespace Reading

/-- What a line asks for when the handlers record their calls. -/
def recording : Reading σ → Reading (σ × List (Call σ))
  | unrecognized => unrecognized
  | ambiguous => ambiguous
  | call handler args => call handler.recording args

/-- The calls that a line asks for. -/
def calls (line : String) : Reading σ → List (Call σ)
  | unrecognized => []
  | ambiguous => []
  | call handler args => [⟨handler, ⟨line, args⟩⟩]

theorem length_calls_le (line : String) (r : Reading σ) : (r.calls line).length ≤ 1 := by
  cases r <;> simp [calls]

theorem ofExpansions_map (es : List (Expansion (Handler σ))) :
    ofExpansions (es.map (Expansion.mirror (CommandTree.map Handler.recording))) =
      (ofExpansions es).recording := by
  rcases es with _ | ⟨e, _ | ⟨d, es⟩⟩
  · rfl
  · simp only [List.map_cons, List.map_nil, ofExpansions, Expansion.handler_last?_map,
      (CommandTree.mirrors_map _).arguments_eq]
    cases e.last?.bind CommandTree.handler <;> rfl
  · rfl

end Reading

namespace Shell

theorem read_recording (s : Shell σ) (line : String) :
    s.recording.read line = (s.read line).recording := by
  cases h : parse line with
  | none =>
    rw [read, read, h]
    rfl
  | some fragments =>
    rw [read_eq_ofExpansions _ h, read_eq_ofExpansions _ h, ← Reading.ofExpansions_map,
      ← expand_map]
    rfl

/-- **Recording changes nothing else.** What is recorded is the call that the line asks for. -/
theorem dispatch_recording (s : Shell σ) (line : String) (world : σ) (before : List (Call σ))
    (sink : Sink) :
    s.recording.dispatch line (world, before) sink =
      ⟨(s.dispatch line world sink).result,
        ((s.dispatch line world sink).world, before ++ (s.read line).calls line),
        (s.dispatch line world sink).sink⟩ := by
  have hreport (text : String) : (Report.conduct text (world, before)).run sink =
      ⟨((Report.conduct text world).run sink).result,
        (((Report.conduct text world).run sink).world, before ++ []),
        ((Report.conduct text world).run sink).sink⟩ := by
    rw [Report.run_conduct, Report.run_conduct, Reply.telling, Reply.telling, List.append_nil]
    cases sink.write text <;> rfl
  rw [dispatch, dispatch, read_recording]
  cases s.read line with
  | unrecognized => exact hreport _
  | ambiguous => exact hreport _
  | call handler args => exact Conduct.run_mapWorld _ (handler.respond ⟨line, args⟩ world) sink

theorem calls_eq (s : Shell σ) (line : String) (world : σ) (sink : Sink) :
    s.calls line world sink = (s.read line).calls line := by
  rw [calls, dispatch_recording, List.nil_append]

end Shell

/-! ## Lines with one reading or more -/

theorem CommandTree.forks_iff {t : CommandTree η} {fs : List String} :
    2 ≤ (expand t fs false).length ↔ ∃ before f after ss, fs = before ++ f :: after ∧
      t.Walks before ss ∧ 2 ≤ (((Expansion.mk ss).reached t).stepsFor f).length := by
  constructor
  · intro hmany
    have hfs : fs ≠ [] := by
      rintro rfl
      simp [expand, expandFrom, Expansion.start] at hmany
    obtain ⟨before, f, after, ss, rfl, hwalk, hlast⟩ := exists_walks_before t hfs
    rw [expand_of_last hwalk hlast, List.length_map] at hmany
    exact ⟨before, f, after, ss, rfl, hwalk, hmany⟩
  · rintro ⟨before, f, after, ss, rfl, hwalk, hmany⟩
    rwa [expand_of_last hwalk (by omega), List.length_map]

namespace Reading

theorem ofExpansions_eq_ambiguous {es : List (Expansion (Handler σ))} :
    ofExpansions es = .ambiguous ↔ 2 ≤ es.length := by
  rcases es with _ | ⟨e, _ | ⟨d, es⟩⟩
  · simp [ofExpansions]
  · simp only [ofExpansions]
    cases e.last?.bind CommandTree.handler <;> simp
  · simp [ofExpansions]

end Reading

namespace Shell

/-- The line is split into fragments, at least one. Each of them in turn has one match at the node
that those before it have reached; the last leads to a node with this handler. The arguments are the
values of the steps to elements that are arguments, in their order. -/
def LeadsTo (s : Shell σ) (line : String) (handler : Handler σ) (args : List Value) : Prop :=
  ∃ fragments steps, parse line = some fragments ∧ fragments ≠ [] ∧
    s.root.Walks fragments steps ∧
    (steps.getLast?.bind fun step => step.node.handler) = some handler ∧
    args = (steps.filter fun step => step.node.element.isArgument).map Step.value

/-- Some fragment of the line has more than one match, and each of those before it has one. -/
def Forks (s : Shell σ) (line : String) : Prop :=
  ∃ before f after steps, parse line = some (before ++ f :: after) ∧
    s.root.Walks before steps ∧
    2 ≤ (((Expansion.mk steps).reached s.root).stepsFor f).length

theorem read_eq_call {s : Shell σ} {line : String} {handler : Handler σ} {args : List Value} :
    s.read line = .call handler args ↔ s.LeadsTo line handler args := by
  constructor
  · intro h
    obtain ⟨fragments, steps, hparse, hwalk, hlast, hargs⟩ := walks_of_read h
    refine ⟨fragments, steps, hparse, ?_, hwalk, hlast, hargs⟩
    rintro rfl
    cases hwalk
    cases hlast
  · rintro ⟨fragments, steps, hparse, hne, hwalk, hlast, rfl⟩
    have hsteps : steps ≠ [] := by
      rintro rfl
      exact hne (List.length_eq_zero_iff.mp hwalk.length_eq.symm)
    refine read_of_expand hparse (CommandTree.expand_of_walks hwalk hsteps) ?_
    rw [Expansion.last?, Option.bind_map]
    exact hlast

theorem read_eq_ambiguous {s : Shell σ} {line : String} :
    s.read line = .ambiguous ↔ s.Forks line := by
  cases h : parse line with
  | none => simp [read, Forks, h]
  | some fragments =>
    rw [read_eq_ofExpansions s h, Reading.ofExpansions_eq_ambiguous, CommandTree.forks_iff]
    simp only [Forks, h, Option.some.injEq]

theorem read_eq_unrecognized {s : Shell σ} {line : String} :
    s.read line = .unrecognized ↔
      (∀ handler args, ¬ s.LeadsTo line handler args) ∧ ¬ s.Forks line := by
  simp only [← read_eq_call, ← read_eq_ambiguous]
  cases s.read line <;> simp

/-! ## Dispatching -/

/-- A dispatch of the line calls this handler once, with these arguments, and does nothing but what
the handler does. -/
def Runs (s : Shell σ) (line : String) (world : σ) (handler : Handler σ) (args : List Value) :
    Prop :=
  ∀ sink, s.calls line world sink = [⟨handler, ⟨line, args⟩⟩] ∧
    s.dispatch line world sink = (handler.respond ⟨line, args⟩ world).run sink

/-- A dispatch of the line calls no handler, writes just this text, and the shell goes on. -/
def Reports (s : Shell σ) (line : String) (world : σ) (text : String) : Prop :=
  ∀ sink, s.calls line world sink = [] ∧
    s.dispatch line world sink = .telling text world sink

theorem runs_of_read {s : Shell σ} {line : String} {handler : Handler σ} {args : List Value}
    (h : s.read line = .call handler args) (world : σ) : s.Runs line world handler args := by
  intro sink
  rw [calls_eq, dispatch, h]
  exact ⟨rfl, rfl⟩

theorem reports_of_read_ambiguous {s : Shell σ} {line : String} (h : s.read line = .ambiguous)
    (world : σ) : s.Reports line world (Report.ambiguous line) := by
  intro sink
  rw [calls_eq, dispatch, h]
  exact ⟨rfl, Report.run_conduct _ world sink⟩

theorem reports_of_read_unrecognized {s : Shell σ} {line : String}
    (h : s.read line = .unrecognized) (world : σ) :
    s.Reports line world Report.unrecognized := by
  intro sink
  rw [calls_eq, dispatch, h]
  exact ⟨rfl, Report.run_conduct _ world sink⟩

theorem Reports.not_runs {s : Shell σ} {line text : String} {world : σ}
    (h : s.Reports line world text) (handler : Handler σ) (args : List Value) :
    ¬ s.Runs line world handler args := by
  intro hruns
  have hcalls := (hruns {}).1
  rw [(h {}).1] at hcalls
  cases hcalls

theorem Runs.unique {s : Shell σ} {line : String} {world : σ} {handler handler' : Handler σ}
    {args args' : List Value} (h : s.Runs line world handler args)
    (h' : s.Runs line world handler' args') : handler = handler' ∧ args = args' := by
  have hcalls := (h {}).1
  rw [(h' {}).1] at hcalls
  cases hcalls
  exact ⟨rfl, rfl⟩

theorem Reports.unique {s : Shell σ} {line text text' : String} {world : σ}
    (h : s.Reports line world text) (h' : s.Reports line world text') : text = text' :=
  Reply.telling_inj ((h {}).2.symm.trans (h' {}).2)

/-- **What a dispatch does.** It makes one call at the most: of the handler that the line leads to,
fragment by fragment, with the arguments that were typed. A line that forks on the way is reported
as ambiguous, and every other line as unrecognized, without a call. -/
theorem dispatch_iff (s : Shell σ) (line : String) (world : σ) :
    (∀ sink, (s.calls line world sink).length ≤ 1) ∧
      (∀ handler args, s.Runs line world handler args ↔ s.LeadsTo line handler args) ∧
      (s.Reports line world (Report.ambiguous line) ↔ s.Forks line) ∧
      (s.Reports line world Report.unrecognized ↔
        (∀ handler args, ¬ s.LeadsTo line handler args) ∧ ¬ s.Forks line) := by
  rw [← read_eq_unrecognized, ← read_eq_ambiguous]
  simp only [← read_eq_call]
  refine ⟨fun sink => s.calls_eq line world sink ▸ Reading.length_calls_le line _, ?_⟩
  have hne := Report.ambiguous_ne_unrecognized line
  cases hread : s.read line with
  | unrecognized =>
    have h := reports_of_read_unrecognized hread world
    refine ⟨fun handler args => ⟨fun hruns => absurd hruns (h.not_runs _ _), nofun⟩,
      ⟨fun hreports => absurd (hreports.unique h) hne, nofun⟩, fun _ => rfl, fun _ => h⟩
  | ambiguous =>
    have h := reports_of_read_ambiguous hread world
    refine ⟨fun handler args => ⟨fun hruns => absurd hruns (h.not_runs _ _), nofun⟩,
      ⟨fun _ => rfl, fun _ => h⟩, fun hreports => absurd (h.unique hreports) hne, nofun⟩
  | call found typed =>
    have h := runs_of_read hread world
    refine ⟨fun handler args => ⟨fun hruns => ?_, fun heq => ?_⟩,
      ⟨fun hreports => absurd h (hreports.not_runs _ _), nofun⟩,
      fun hreports => absurd h (hreports.not_runs _ _), nofun⟩
    · obtain ⟨rfl, rfl⟩ := h.unique hruns
      rfl
    · cases heq
      exact h

/-- One call, with what was typed for the two places. -/
example : (ofPing.calls "p h 5" () {}).map (fun c => (c.handler.serial, c.invocation.args)) =
    [(0, [.word "h", .integer 5])] := by
  decide +kernel

end Shell

end Console
