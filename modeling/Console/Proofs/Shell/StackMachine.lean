import Console.Shell.Run
import Mathlib.Data.List.DropRight

/-!
# Running shells with a stack

A shell runs its modes by running a shell inside a shell. A machine that keeps the open shells on a
stack does the same with no recursion: it reads a line for the shell on top, and pushes, pops or
keeps.

* `Observation`: what can be seen of a run: what is unread, the history, the prompts, the output and
  the world;
* `firstLine`, `behindLine`: the line that is read, without its outer blanks, and what is unread
  then; `firstLine_unread`: they are what a reader does;
* `StackMachine.step`, `StackMachine.run`: the machine;
* **`step_view`**: one step of the machine is one line of the shell on top;
* **`run_cons`**: the shell on top runs to its end, and then those below it go on;
* **`stackMachine_run`**: a run of a shell is a run of the machine.
-/

namespace Console

open Text

/-- What can be seen of a run. -/
structure Observation (σ : Type) where
  /-- The bytes not read yet. -/
  unread : List UInt8
  history : History
  /-- The prompts with which lines were asked for, in order. -/
  prompts : List String
  sink : Sink
  world : σ

/-- A machine that runs shells: those that are open, the innermost first, and what is seen. -/
structure StackMachine (σ : Type) where
  stack : List (Shell σ)
  view : Observation σ

/-- What a machine leaves when it halts. -/
structure Halt (σ : Type) where
  result : Except Error Unit
  view : Observation σ

namespace StackMachine

variable {σ : Type}

/-- What follows from the result of a dispatch on the shell `top`. -/
def settle (top : Shell σ) (below : List (Shell σ)) (v : Observation σ) :
    Except Error Outcome → Halt σ ⊕ StackMachine σ
  | .ok .continue => .inr ⟨top :: below, v⟩
  | .ok .exit => .inr ⟨below, v⟩
  | .ok (.enter name) =>
    match top.mode? name with
    | some mode => .inr ⟨mode :: top :: below, v⟩
    | none => .inl ⟨.error (.unknownMode name), v⟩
  | .error (.command text) =>
    match v.sink.write ("% " ++ text ++ "\n\n") with
    | .ok sink => .inr ⟨top :: below, { v with sink }⟩
    | .error e => .inl ⟨.error (.stdio e), v⟩
  | .error e => .inl ⟨.error e, v⟩

/-- What a line does that was read for the shell `top`. -/
def obey (top : Shell σ) (below : List (Shell σ)) (line : String) (v : Observation σ) :
    Halt σ ⊕ StackMachine σ :=
  if line = "" then .inr ⟨top :: below, v⟩
  else if line.toList.getLast? = some '?' then
    match top.describe (String.ofList (line.toList.rdropWhile (· = '?'))) v.sink with
    | .ok sink => .inr ⟨top :: below, { v with sink }⟩
    | .error r => .inl ⟨.error (.stdio r.cause), { v with sink := r.sink }⟩
  else
    let reply := top.dispatch line v.world v.sink
    settle top below
      { v with history := v.history.add line, world := reply.world, sink := reply.sink }
      reply.result

/-- The line that some bytes begin with, without its outer blanks. There is none where the bytes
have come to their end. -/
def firstLine (bytes : List UInt8) : Except IoFailure (Option String) :=
  if bytes = [] then .ok none
  else
    match Utf8.decode (bytes.takeWhile (· != 10)) with
    | some line => .ok (some (trim line))
    | none => .error .invalidText

/-- The bytes behind the first line of some bytes. -/
def behindLine (bytes : List UInt8) : List UInt8 := (bytes.dropWhile (· != 10)).tail

/-- One step. The machine halts when no shell is open. -/
def step (m : StackMachine σ) : Halt σ ⊕ StackMachine σ :=
  match m.stack with
  | [] => .inl ⟨.ok (), m.view⟩
  | top :: below =>
    let v := { m.view with
      unread := behindLine m.view.unread, prompts := m.view.prompts ++ [top.prompt] }
    match firstLine m.view.unread with
    | .ok none => .inr ⟨below, v⟩
    | .ok (some line) => obey top below line v
    | .error e => .inl ⟨.error (.stdio e), v⟩

/-- The bytes that a machine has not read. -/
def unread (m : StackMachine σ) : List UInt8 := m.view.unread

theorem unread_settle {top : Shell σ} {below : List (Shell σ)} {v : Observation σ}
    {result : Except Error Outcome} {m : StackMachine σ}
    (h : settle top below v result = .inr m) : m.unread = v.unread := by
  unfold settle at h
  split at h
  · cases h
    rfl
  · cases h
    rfl
  · split at h
    · cases h
      rfl
    · cases h
  · split at h
    · cases h
      rfl
    · cases h
  · cases h

theorem unread_obey {top : Shell σ} {below : List (Shell σ)} {line : String} {v : Observation σ}
    {m : StackMachine σ} (h : obey top below line v = .inr m) : m.unread = v.unread := by
  unfold obey at h
  split_ifs at h
  · cases h
    rfl
  · split at h
    · cases h
      rfl
    · cases h
  · have hsettle := unread_settle h
    exact hsettle

theorem firstLine_eq_none {bytes : List UInt8} : firstLine bytes = .ok none ↔ bytes = [] := by
  unfold firstLine
  split_ifs with hempty
  · simp [hempty]
  · split <;> simp [hempty]

/-- A step reads something, or it closes a shell. -/
theorem step_lt {m m' : StackMachine σ} (h : m.step = .inr m') :
    m'.unread.length < m.unread.length ∨
      m'.unread.length = m.unread.length ∧ m'.stack.length < m.stack.length := by
  obtain ⟨stack, view⟩ := m
  cases stack with
  | nil => cases h
  | cons top below =>
    unfold step at h
    simp only at h
    split at h
    · rename_i hread
      cases h
      refine .inr ⟨?_, Nat.lt_succ_self _⟩
      simp only [unread, firstLine_eq_none.mp hread]
      rfl
    · rename_i line hread
      left
      rw [unread_obey h]
      refine Reader.length_tail_dropWhile_lt fun hempty => ?_
      rw [firstLine_eq_none.mpr hempty] at hread
      cases hread
    · cases h

/-- Runs a machine until it halts. -/
def run (m : StackMachine σ) : Halt σ :=
  match _ : m.step with
  | .inl halt => halt
  | .inr m' => m'.run
termination_by (m.unread.length, m.stack.length)
decreasing_by
  rcases step_lt ‹_› with h | ⟨h, h'⟩
  · exact Prod.Lex.left _ _ h
  · rw [h]
    exact Prod.Lex.right _ h'

theorem run_of_inl {m : StackMachine σ} {halt : Halt σ} (h : m.step = .inl halt) :
    m.run = halt := by
  rw [run]
  split <;> simp_all

theorem run_of_inr {m m' : StackMachine σ} (h : m.step = .inr m') : m.run = m'.run := by
  rw [run]
  split <;> simp_all

end StackMachine

/-! ## Reading -/

theorem isBlank_of_isLineEnd {c : Char} (h : Reader.isLineEnd c = true) : isBlank c = true := by
  rw [Reader.isLineEnd, Bool.or_eq_true, beq_iff_eq, beq_iff_eq] at h
  rcases h with rfl | rfl <;> decide

theorem trimEnd_append {cs ds : List Char} (h : ∀ c ∈ ds, isBlank c = true) :
    trimEnd (cs ++ ds) = trimEnd cs := by
  rw [trimEnd, dropEndWhile, List.reverse_append, List.dropWhile_append_of_pos]
  · rfl
  · exact fun c hc => h c (List.mem_reverse.mp hc)

theorem trim_dropEndWhile (cs : List Char) :
    trim (String.ofList (dropEndWhile Reader.isLineEnd cs)) = trim (String.ofList cs) := by
  have hends : ∀ c ∈ cs.rtakeWhile Reader.isLineEnd, isBlank c = true :=
    fun c hc => isBlank_of_isLineEnd (List.mem_rtakeWhile_imp hc)
  have hsplit : dropEndWhile Reader.isLineEnd cs ++ cs.rtakeWhile Reader.isLineEnd = cs :=
    List.rdropWhile_append_rtakeWhile
  simp only [trim, String.toList_ofList]
  conv_rhs => rw [← hsplit]
  generalize dropEndWhile Reader.isLineEnd cs = front
  rw [trimStart, trimStart, List.dropWhile_append]
  split
  · rename_i hblank
    rw [List.isEmpty_iff.mp hblank, List.dropWhile_eq_nil_iff.mpr hends]
  · rw [trimEnd_append hends]

/-- **What the machine reads** is what a reader reads. -/
theorem firstLine_unread (r : Reader) :
    StackMachine.firstLine r.unread = r.readLine.1.map (Option.map trim) := by
  unfold StackMachine.firstLine Reader.readLine Reader.lineText Reader.lineFeed
  by_cases hempty : r.unread = []
  · rw [if_pos hempty, if_pos (List.isEmpty_iff.mpr hempty)]
    rfl
  · rw [if_neg hempty, if_neg (mt List.isEmpty_iff.mp hempty)]
    dsimp only
    cases Utf8.decode (r.unread.takeWhile (· != 10)) with
    | none => rfl
    | some text =>
      simp only [Except.map, Option.map_some, trim_dropEndWhile, String.ofList_toList]

theorem readLine_snd (r : Reader) :
    r.readLine.2 = ⟨StackMachine.behindLine r.unread, r.history⟩ := by
  unfold Reader.readLine
  split_ifs with hempty
  · obtain ⟨unread, history⟩ := r
    obtain rfl : unread = [] := List.isEmpty_iff.mp hempty
    rfl
  · rfl

namespace Session

variable {σ : Type}

/-- What is seen of a session. -/
def view (s : Session σ) : Observation σ :=
  ⟨s.reader.unread, s.reader.history, s.prompts, s.sink, s.world⟩

@[simp] theorem view_unread (s : Session σ) : s.view.unread = s.reader.unread := rfl

@[simp] theorem view_history (s : Session σ) : s.view.history = s.reader.history := rfl

@[simp] theorem view_prompts (s : Session σ) : s.view.prompts = s.prompts := rfl

@[simp] theorem view_sink (s : Session σ) : s.view.sink = s.sink := rfl

@[simp] theorem view_world (s : Session σ) : s.view.world = s.world := rfl

theorem prompts_note_prompted (s : Session σ) (prompt : String) :
    (s.note (.prompted prompt)).prompts = s.prompts ++ [prompt] := by
  unfold prompts note
  rw [Array.toList_push, List.filterMap_append]
  rfl

theorem prompts_note {e : Event} (h : ∀ prompt, e ≠ .prompted prompt) (s : Session σ) :
    (s.note e).prompts = s.prompts := by
  unfold prompts note
  rw [Array.toList_push, List.filterMap_append]
  cases e with
  | prompted prompt => exact absurd rfl (h prompt)
  | received line => exact List.append_nil _
  | recorded line => exact List.append_nil _
  | called handler args => exact List.append_nil _

theorem view_ask (s : Session σ) (prompt : String) :
    (s.ask prompt).2.view = { s.view with
      unread := StackMachine.behindLine s.reader.unread, prompts := s.prompts ++ [prompt] } := by
  rw [← prompts_note_prompted]
  unfold ask
  simp only
  split
  · unfold view
    rw [prompts_note (by simp)]
    dsimp only [note]
    rw [readLine_snd]
    rfl
  · unfold view
    dsimp only [note]
    rw [readLine_snd]
    rfl

theorem view_record (s : Session σ) (line : String) :
    (s.record line).view = { s.view with history := s.reader.history.add line } := by
  unfold record view
  rw [prompts_note (by simp)]
  rfl

theorem world_record (s : Session σ) (line : String) : (s.record line).world = s.world :=
  congrArg Observation.world (view_record s line)

theorem sink_record (s : Session σ) (line : String) : (s.record line).sink = s.sink :=
  congrArg Observation.sink (view_record s line)

theorem view_noteCall (s : Session σ) (r : Reading σ) : (s.noteCall r).view = s.view := by
  cases r with
  | unrecognized => rfl
  | ambiguous => rfl
  | call handler args =>
    unfold noteCall view
    rw [prompts_note (by simp)]
    rfl

theorem world_noteCall (s : Session σ) (r : Reading σ) : (s.noteCall r).world = s.world :=
  congrArg Observation.world (view_noteCall s r)

theorem sink_noteCall (s : Session σ) (r : Reading σ) : (s.noteCall r).sink = s.sink :=
  congrArg Observation.sink (view_noteCall s r)

theorem view_after (s : Session σ) (reply : Reply σ) :
    (s.after reply).view = { s.view with world := reply.world, sink := reply.sink } := rfl

end Session

/-! ## The machine and the shell -/

namespace StackMachine

variable {σ : Type}

/-- What follows from a line that the shell `top` has handled. -/
def advance (top : Shell σ) (below : List (Shell σ)) (turn : Turn σ) : Halt σ ⊕ StackMachine σ :=
  match turn.next with
  | .again => .inr ⟨top :: below, turn.session.view⟩
  | .leave => .inr ⟨below, turn.session.view⟩
  | .stop e => .inl ⟨.error e, turn.session.view⟩
  | .enter name =>
    match top.mode? name with
    | some mode => .inr ⟨mode :: top :: below, turn.session.view⟩
    | none => .inl ⟨.error (.unknownMode name), turn.session.view⟩

theorem settle_eq (top : Shell σ) (below : List (Shell σ)) (s : Session σ)
    (result : Except Error Outcome) :
    settle top below s.view result = advance top below (Shell.follow s result) := by
  cases result with
  | ok outcome => cases outcome <;> rfl
  | error e =>
    cases e with
    | command text =>
      simp only [settle, Shell.follow, Session.write, Report.failed, Session.view_sink]
      cases s.sink.write ("% " ++ text ++ "\n\n") with
      | ok sink => rfl
      | error e => rfl
    | _ => rfl

theorem obey_eq (top : Shell σ) (below : List (Shell σ)) (line : String) (s : Session σ) :
    obey top below (trim line) s.view = advance top below (top.handle line s) := by
  unfold obey Shell.handle
  simp only
  by_cases hempty : trim line = ""
  · rw [if_pos hempty, if_pos (String.isEmpty_iff.mpr hempty)]
    rfl
  · rw [if_neg hempty, if_neg (mt String.isEmpty_iff.mp hempty)]
    unfold Shell.question?
    by_cases hmark : (trim line).toList.getLast? = some '?'
    · rw [if_pos hmark, if_pos hmark]
      have hasked : (trim line).toList.rdropWhile (· = '?') =
          dropEndWhile (· == '?') (trim line).toList := rfl
      simp only [Shell.answer, hasked, Session.view_sink]
      cases top.describe _ s.sink with
      | ok sink => rfl
      | error e => rfl
    · rw [if_neg hmark, if_neg hmark]
      unfold Shell.execute
      simp only [Session.world_noteCall, Session.sink_noteCall, Session.world_record,
        Session.sink_record, Session.view_world, Session.view_sink]
      rw [← settle_eq, Session.view_after, Session.view_noteCall, Session.view_record,
        Session.view_history]

/-- **One step of the machine is one line of the shell on top.** -/
theorem step_view (top : Shell σ) (below : List (Shell σ)) (s : Session σ) :
    step ⟨top :: below, s.view⟩ =
      match (s.ask top.prompt).1 with
      | .error e => .inl ⟨.error (.stdio e), (s.ask top.prompt).2.view⟩
      | .ok none => .inr ⟨below, (s.ask top.prompt).2.view⟩
      | .ok (some line) => advance top below (top.handle line (s.ask top.prompt).2) := by
  have hview := Session.view_ask s top.prompt
  rw [Session.ask_fst]
  unfold step
  simp only [Session.view_unread, Session.view_prompts, firstLine_unread]
  cases s.reader.readLine.1 with
  | error e =>
    rw [hview]
    rfl
  | ok answer =>
    cases answer with
    | none =>
      rw [hview]
      rfl
    | some line =>
      simp only [← obey_eq, hview]
      rfl

theorem unread_run_le (shell : Shell σ) (s : Session σ) :
    (shell.run s).session.unread.length ≤ s.unread.length :=
  (shell.runWithin s).le

/-- How a machine goes on when the shell on top has ended so. -/
def rest (below : List (Shell σ)) (e : Shell.Ending σ) : Halt σ :=
  match e.result with
  | .error err => ⟨.error err, e.session.view⟩
  | .ok () => run ⟨below, e.session.view⟩

/-- **The shell on top runs to its end, and then those below it go on.** -/
theorem run_cons (top : Shell σ) (below : List (Shell σ)) (s : Session σ) :
    run ⟨top :: below, s.view⟩ = rest below (top.run s) := by
  induction hn : s.unread.length using Nat.strong_induction_on generalizing top below s with
  | _ n ih =>
    subst hn
    have hstep := step_view top below s
    rw [Shell.run_eq]
    cases hanswer : (s.ask top.prompt).1 with
    | error e =>
      simp only [hanswer] at hstep
      rw [run_of_inl hstep]
      rfl
    | ok answer =>
      cases answer with
      | none =>
        simp only [hanswer] at hstep
        rw [run_of_inr hstep]
        rfl
      | some line =>
        simp only [hanswer] at hstep
        have hread := Session.unread_ask_lt hanswer
        rw [← Shell.unread_handle top line] at hread
        simp only
        generalize top.handle line (s.ask top.prompt).2 = turn at hstep hread
        obtain ⟨next, t⟩ := turn
        cases next with
        | again =>
          rw [run_of_inr hstep]
          exact ih _ hread top below t rfl
        | leave =>
          rw [run_of_inr hstep]
          rfl
        | stop e =>
          rw [run_of_inl hstep]
          rfl
        | enter name =>
          unfold advance at hstep
          simp only at hstep
          unfold Shell.resume Shell.enter
          simp only
          cases hmode : top.mode? name with
          | none =>
            rw [hmode] at hstep
            rw [run_of_inl hstep]
            rfl
          | some mode =>
            rw [hmode] at hstep
            have hinner := unread_run_le mode t
            rw [run_of_inr hstep, ih _ hread mode (top :: below) t rfl]
            simp only [rest]
            cases (mode.run t).result with
            | error e => rfl
            | ok u => exact ih _ (Nat.lt_of_le_of_lt hinner hread) top below _ rfl

end StackMachine

/-- **A run of a shell is a run of the machine that begins with this shell alone.** They agree in
the result, in what is unread, the history, the prompts and the output, and in the world. -/
theorem stackMachine_run {σ : Type} (shell : Shell σ) (s : Session σ) :
    StackMachine.run ⟨[shell], s.view⟩ = ⟨(shell.run s).result, (shell.run s).session.view⟩ := by
  rw [StackMachine.run_cons]
  unfold StackMachine.rest
  cases hresult : (shell.run s).result with
  | error e => rfl
  | ok u => exact StackMachine.run_of_inl rfl

/-- A command that does nothing but to end so. -/
def Command.ending (spec : String) (serial : ℕ) (result : Except Error Outcome) : Command Unit :=
  ⟨spec, [], false, ⟨spec, serial, fun _ world => .finish result world⟩⟩

namespace Shell

/-- A shell that can be left. -/
def ofLeaving : Shell Unit :=
  ((Shell.empty "(in)>").load (.ofList [.ending "leave" 0 (.ok .exit)]) ()).shell

/-- Commands that go into that shell, go where there is none, and fail. -/
def venturing : CommandSet Unit :=
  ⟨[.ending "go" 0 (.ok (.enter "in")), .ending "lose" 1 (.ok (.enter "out")),
    .ending "fail" 2 (.error (.command "no luck"))], some [.addMode "in" ofLeaving]⟩

/-- The shell with these commands. -/
def ofVenturing : Shell Unit := ((Shell.empty ">").load venturing ()).shell

/-- A way in and out, a question, a failure that is reported, and one that ends the run. -/
def venture : Session Unit := .start "go\n\n leave\r\ngo?\n  fail \nlose\ngo\n".toUTF8.toList ()

end Shell

theorem stackMachine_run_venture :
    let halt := StackMachine.run ⟨[Shell.ofVenturing], Shell.venture.view⟩
    halt.result = .error (.unknownMode "out") ∧
      halt.view.history.entries = ["go", "leave", "fail", "lose"] ∧
      halt.view.prompts = [">", "(in)>", "(in)>", ">", ">", ">"] ∧
      halt.view.sink.written = "  go\t\n\n% no luck\n\n" ∧
      halt.view.unread = "go\n".toUTF8.toList := by
  rw [stackMachine_run]
  decide +kernel

end Console
