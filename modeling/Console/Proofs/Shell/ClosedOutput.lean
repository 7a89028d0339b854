import Console.Proofs.Shell.Attends
import Console.Proofs.Shell.TypedArguments
import Console.Proofs.Shell.Visible

/-!
# Output that closes

Dispatch, help and runs on a sink with a limit, compared with the same on a sink without one.

* `Session.calls`, `Session.received`, `Session.recorded`: what a run has called, read and recorded;
* **`Shell.within_limit`**: what a limit changes;
* `Shell.PassesOn.of_loadedWith`: a loaded shell passes failures on if its commands do.
-/

namespace Console

variable {σ : Type}

namespace Session

/-- The calls of handlers, in order. -/
def calls (s : Session σ) : List (String × List Value) :=
  s.journal.toList.filterMap fun
    | .called handler args => some (handler, args)
    | _ => none

/-- The lines that were read, in order. -/
def received (s : Session σ) : List String :=
  s.journal.toList.filterMap fun
    | .received line => some line
    | _ => none

/-- The lines that went into the history, in order. -/
def recorded (s : Session σ) : List String :=
  s.journal.toList.filterMap fun
    | .recorded line => some line
    | _ => none

end Session

/-- **A closed output is noticed, and changes nothing else.** A dispatch, help and a run do the same
on a sink with a limit as on one without, if what they write there is within the limit. If it
exceeds the limit, they end with the failure of the sink, and what they have written, read, recorded
and called until then is the beginning of what it is without a limit. -/
theorem Shell.within_limit {shell : Shell σ} (hp : shell.PassesOn) (n : ℕ) :
    (∀ line world,
      (∀ sink, shell.dispatch line world sink =
        ((shell.read line).conduct line world).run sink) ∧
      let free := shell.dispatch line world {}
      let limited := shell.dispatch line world { limit := some n }
      (free.sink.size ≤ n → limited = { free with sink := free.sink.within n }) ∧
        (n < free.sink.size →
          limited.result = .error (.stdio .sinkClosed) ∧ limited.sink.Begins free.sink)) ∧
    (∀ line, ∃ free, shell.describe line {} = .ok free ∧
      (free.size ≤ n → shell.describe line { limit := some n } = .ok (free.within n)) ∧
        (n < free.size → ∃ refusal, shell.describe line { limit := some n } = .error refusal ∧
          refusal.cause = .sinkClosed ∧ refusal.sink.Begins free)) ∧
    ∀ s : Session σ,
      let free := shell.run { s with sink := {} }
      let limited := shell.run { s with sink := { limit := some n } }
      (free.session.sink.size ≤ n →
        limited.result = free.result ∧ limited.session = free.session.within n) ∧
      (n < free.session.sink.size → limited.result = .error (.stdio .sinkClosed) ∧
        limited.session.sink.Begins free.session.sink ∧
        limited.session.calls <+: free.session.calls ∧
        limited.session.received <+: free.session.received ∧
        limited.session.recorded <+: free.session.recorded) := by
  have hempty : ({} : Sink).size ≤ n := Nat.zero_le n
  refine ⟨fun line world => ⟨fun sink => rfl, ?_⟩, fun line => ?_, fun s => ?_⟩
  · obtain ⟨-, -, hsame, hstops⟩ :=
      Conduct.run_within (hp.conduct line world) (rfl : ({} : Sink).limit = none)
    exact ⟨hsame n, hstops n hempty⟩
  · obtain ⟨free, hfree, -, -, hfits, hexceeds⟩ :=
      Sink.exists_writeAll (rfl : ({} : Sink).limit = none) ((shell.help line).texts line)
    simp only [describe_eq_writeAll]
    exact ⟨free, hfree, hfits n, hexceeds n hempty⟩
  · have hrun := attends_run hp (rfl : ({ s with sink := {} } : Session σ).sink.limit = none)
    refine ⟨fun hn => ?_, fun hn => ?_⟩
    · exact Prod.mk.inj (hrun.same n hn)
    · obtain ⟨hresult, hsink, hjournal⟩ := hrun.stops n hempty hn
      exact ⟨hresult, hsink, hjournal.filterMap _, hjournal.filterMap _, hjournal.filterMap _⟩

namespace Shell

theorem exists_command_of_read {prompt : String} {sets : List (CommandSet σ)} {shell : Shell σ}
    (hs : Shell.LoadedWith prompt sets shell) {line : String} {handler : Handler σ}
    {args : List Value} (h : shell.read line = .call handler args) :
    ∃ c ∈ sets.flatMap CommandSet.brings, c.handler = handler := by
  obtain ⟨fs, ss, -, hwalk, hlast, -⟩ := walks_of_read h
  have he : expand shell.root fs false = [⟨ss⟩] := by
    refine CommandTree.expand_of_walks hwalk ?_
    rintro rfl
    cases hlast
  have hend : (Expansion.mk ss).last?.bind CommandTree.handler = some handler := by
    rw [Expansion.last?, Option.bind_map]
    exact hlast
  obtain ⟨c, hc, -, hhandler⟩ := hs.gains.exists_command (he ▸ List.mem_singleton_self _) hend
  exact ⟨c, hc, hhandler⟩

theorem PassesOn.of_loadedWith {prompt : String} {sets : List (CommandSet σ)} {shell : Shell σ}
    (hs : Shell.LoadedWith prompt sets shell)
    (commands : ∀ c ∈ sets.flatMap CommandSet.brings, ∀ i world,
      (c.handler.respond i world).PassesOn)
    (modes : ∀ name mode, shell.mode? name = some mode → mode.PassesOn) : shell.PassesOn := by
  intro names inner hinner line handler args hread i world
  cases names with
  | nil =>
    cases hinner
    obtain ⟨c, hc, rfl⟩ := exists_command_of_read hs hread
    exact commands c hc i world
  | cons name names =>
    obtain ⟨mode, hmode, hinner⟩ := Option.bind_eq_some_iff.mp hinner
    exact modes name mode hmode names inner hinner line handler args hread i world

end Shell

/-- A command that tells a text. -/
def Command.telling (spec text : String) (serial : ℕ) : Command Unit :=
  ⟨spec, [], false, ⟨spec, serial, fun _ world =>
    .print text world (.finish (.ok .continue) world)⟩⟩

namespace Shell

/-- A command that tells something. -/
def tellingSet : CommandSet Unit := ⟨[.telling "show" "inside\n" 0], none⟩

/-- The shell with this command. -/
def ofTelling : Shell Unit := ((Shell.empty "(in)>").load tellingSet ()).shell

/-- Another such command, and one that goes into the shell with the first. -/
def enteringSet : CommandSet Unit :=
  ⟨[.telling "show" "outside\n" 0, .ending "go" 1 (.ok (.enter "in"))],
    some [.addMode "in" ofTelling]⟩

/-- The shell with these two. -/
def ofEntering : Shell Unit := ((Shell.empty ">").load enteringSet ()).shell

theorem passesOn_ofTelling : ofTelling.PassesOn := by
  have hs : Shell.LoadedWith "(in)>" [tellingSet] ofTelling := .load _ () .empty (by decide +kernel)
  have hmodes : ofTelling.modes = [] := by with_unfolding_all rfl
  refine PassesOn.of_loadedWith hs ?_ ?_
  · simp only [List.flatMap_singleton, tellingSet, CommandSet.brings, List.mem_singleton, forall_eq]
    exact fun i world => .print (.finish _ _)
  · intro name mode hmode
    rw [mode?, hmodes] at hmode
    cases hmode

theorem passesOn_ofEntering : ofEntering.PassesOn := by
  have hs : Shell.LoadedWith ">" [enteringSet] ofEntering := .load _ () .empty (by decide +kernel)
  have hmodes : ofEntering.modes = [("in", ofTelling)] := by with_unfolding_all rfl
  refine PassesOn.of_loadedWith hs ?_ ?_
  · simp only [List.flatMap_singleton, enteringSet, CommandSet.brings, LoadAction.bringAll,
      LoadAction.brings, List.append_nil, List.mem_cons, List.not_mem_nil, or_false,
      forall_eq_or_imp, forall_eq]
    exact ⟨fun i world => .print (.finish _ _), fun i world => .finish _ _⟩
  · intro name mode hmode
    rw [mode?, hmodes, List.lookup_cons] at hmode
    split at hmode
    · cases hmode
      exact passesOn_ofTelling
    · cases hmode

/-- A line in the shell, and two in the shell that is entered from it. -/
def enteringScript : Session Unit := .start "show\ngo\nshow\nshow\n".toUTF8.toList ()

/-- The output has 22 bytes: a limit of 22 changes nothing, and one of 15 ends the run. One of 6
ends help between its two texts. -/
theorem within_limit_entering :
    ofEntering.PassesOn ∧ (ofEntering.run enteringScript).session.sink.size = 22 ∧
      (ofEntering.run { enteringScript with sink := { limit := some 22 } }).session =
        (ofEntering.run enteringScript).session.within 22 ∧
      (ofEntering.run { enteringScript with sink := { limit := some 15 } }).result =
        .error (.stdio .sinkClosed) ∧
      (ofEntering.describe "g" { limit := some 6 }).mapError Sink.Refusal.cause =
        .error .sinkClosed := by
  have hsize : (ofEntering.run enteringScript).session.sink.size = 22 := by decide +kernel
  obtain ⟨-, -, hfits⟩ := within_limit passesOn_ofEntering 22
  obtain ⟨-, -, hexceeds⟩ := within_limit passesOn_ofEntering 15
  have hlt : 15 < (ofEntering.run enteringScript).session.sink.size := by rw [hsize]; decide
  obtain ⟨-, hsame⟩ := (hfits enteringScript).1 (Nat.le_of_eq hsize)
  obtain ⟨hclosed, -⟩ := (hexceeds enteringScript).2 hlt
  obtain ⟨free, hfree, -, hrefused⟩ := (within_limit passesOn_ofEntering 6).2.1 "g"
  have hlong : (ofEntering.describe "g" {}).toOption.map Sink.size = some 7 := by decide +kernel
  rw [hfree] at hlong
  have hlonger : free.size = 7 := Option.some.inj hlong
  obtain ⟨refusal, herror, hcause, -⟩ := hrefused (by rw [hlonger]; decide)
  rw [herror]
  exact ⟨passesOn_ofEntering, hsize, hsame, hclosed, congrArg Except.error hcause⟩

end Shell

end Console
