import Console.Reader
import Console.Shell.Assistant
import Console.Shell.Load

/-!
# Running a shell

A shell reads lines until its input ends or a command leaves it. A command may go into a mode, which
is a shell run in the same way on the same input; when the mode ends, the shell goes on.

* `Session`: the input, the output and the world of a run, with a journal of what was read and
  called;
* `Shell.handle`: what one line does; `Shell.run`: a whole run;
* `Shell.run_eq`: the run as a recursion over its lines.
-/

namespace Console

open Text

/-- What is noted during a run. -/
inductive Event where
  /-- A line was asked for with this prompt. -/
  | prompted (prompt : String)
  /-- This line was read. -/
  | received (line : String)
  /-- This line went into the history. -/
  | recorded (line : String)
  /-- The handler of this name was called with these arguments. -/
  | called (handler : String) (args : List Value)
  deriving DecidableEq

/-- What a run works with. -/
structure Session (σ : Type) where
  reader : Reader
  journal : Array Event
  sink : Sink
  world : σ

namespace Session

variable {σ : Type}

/-- A session that has not begun. -/
def start (bytes : List UInt8) (world : σ) (limit : Option Nat := none) : Session σ :=
  ⟨.ofBytes bytes, #[], ⟨"", limit⟩, world⟩

/-- The bytes not read yet. -/
def unread (s : Session σ) : List UInt8 := s.reader.unread

/-- The prompts with which lines were asked for, in order. -/
def prompts (s : Session σ) : List String :=
  s.journal.toList.filterMap fun
    | .prompted prompt => some prompt
    | _ => none

/-- Notes an event. -/
def note (s : Session σ) (e : Event) : Session σ := { s with journal := s.journal.push e }

/-- Asks for a line. -/
def ask (s : Session σ) (prompt : String) : Except IoFailure (Option String) × Session σ :=
  let s := s.note (.prompted prompt)
  let (answer, reader) := s.reader.readLine
  match answer with
  | .ok (some line) => (answer, { s with reader }.note (.received line))
  | _ => (answer, { s with reader })

/-- Puts a line into the history. -/
def record (s : Session σ) (line : String) : Session σ :=
  { s with reader := s.reader.record line }.note (.recorded line)

/-- Notes the call that a line asks for, if it asks for one. -/
def noteCall (s : Session σ) : Reading σ → Session σ
  | .call handler args => s.note (.called handler.name args)
  | _ => s

/-- Writes a text. -/
def write (s : Session σ) (text : String) : Except IoFailure (Session σ) :=
  (s.sink.write text).map fun sink => { s with sink }

/-- The session as a handler leaves it. -/
def after (s : Session σ) (reply : Reply σ) : Session σ :=
  { s with world := reply.world, sink := reply.sink }

theorem unread_record (s : Session σ) (line : String) : (s.record line).unread = s.unread := rfl

theorem unread_noteCall (s : Session σ) (r : Reading σ) : (s.noteCall r).unread = s.unread := by
  cases r <;> rfl

theorem unread_after (s : Session σ) (reply : Reply σ) : (s.after reply).unread = s.unread := rfl

theorem unread_write {s t : Session σ} {text : String} (h : s.write text = .ok t) :
    t.unread = s.unread := by
  unfold write at h
  cases hw : s.sink.write text with
  | error e => simp [hw, Except.map] at h
  | ok sink =>
    simp only [hw, Except.map, Except.ok.injEq] at h
    subst h
    rfl

theorem ask_fst (s : Session σ) (prompt : String) : (s.ask prompt).1 = s.reader.readLine.1 := by
  unfold ask
  simp only [note]
  split <;> rfl

theorem unread_ask (s : Session σ) (prompt : String) :
    (s.ask prompt).2.unread = s.reader.readLine.2.unread := by
  unfold ask
  simp only [note]
  split <;> rfl

theorem unread_ask_le (s : Session σ) (prompt : String) :
    (s.ask prompt).2.unread.length ≤ s.unread.length :=
  unread_ask s prompt ▸ s.reader.unread_readLine_le

theorem unread_ask_lt {s : Session σ} {prompt line : String}
    (h : (s.ask prompt).1 = .ok (some line)) :
    (s.ask prompt).2.unread.length < s.unread.length := by
  rw [unread_ask]
  exact Reader.unread_readLine_lt (ask_fst s prompt ▸ h)

end Session

/-- What is to be done after a line. -/
inductive Next where
  /-- Read the next line. -/
  | again
  /-- Leave this shell. -/
  | leave
  /-- Go into a mode. -/
  | enter (mode : String)
  /-- Leave all shells with an error. -/
  | stop (error : Error)

/-- What a line leaves. -/
structure Turn (σ : Type) where
  next : Next
  session : Session σ

namespace Shell

variable {σ : Type}

/-- A line without the question marks at its end, if it has any. -/
def question? (line : String) : Option String :=
  if line.toList.getLast? = some '?' then
    some (String.ofList (dropEndWhile (· == '?') line.toList))
  else none

/-- What follows from the result of a handler. A command that fails in its own words is reported,
and the shell goes on. -/
def follow (s : Session σ) : Except Error Outcome → Turn σ
  | .ok .continue => ⟨.again, s⟩
  | .ok .exit => ⟨.leave, s⟩
  | .ok (.enter mode) => ⟨.enter mode, s⟩
  | .error (.command text) =>
    match s.write (Report.failed text) with
    | .ok t => ⟨.again, t⟩
    | .error e => ⟨.stop (.stdio e), s⟩
  | .error e => ⟨.stop e, s⟩

/-- Writes help for a line. -/
def answer (shell : Shell σ) (asked : String) (s : Session σ) : Turn σ :=
  match shell.describe asked s.sink with
  | .ok sink => ⟨.again, { s with sink }⟩
  | .error r => ⟨.stop (.stdio r.cause), { s with sink := r.sink }⟩

/-- Records a line and dispatches it. -/
def execute (shell : Shell σ) (line : String) (s : Session σ) : Turn σ :=
  let s := (s.record line).noteCall (shell.read line)
  let reply := shell.dispatch line s.world s.sink
  follow (s.after reply) reply.result

/-- What one line does. Outer blanks do not count, and a blank line does nothing. A line that ends
in a question mark asks for help and is not recorded; any other is recorded and dispatched. -/
def handle (shell : Shell σ) (line : String) (s : Session σ) : Turn σ :=
  let line := trim line
  if line.isEmpty then ⟨.again, s⟩
  else
    match question? line with
    | some asked => shell.answer asked s
    | none => shell.execute line s

theorem unread_follow (s : Session σ) (result : Except Error Outcome) :
    (follow s result).session.unread = s.unread := by
  unfold follow
  split <;> try rfl
  split
  · rename_i h
    exact Session.unread_write h
  · rfl

theorem unread_handle (shell : Shell σ) (line : String) (s : Session σ) :
    (shell.handle line s).session.unread = s.unread := by
  unfold handle
  simp only
  split
  · rfl
  · split
    · unfold answer
      split <;> rfl
    · unfold execute
      rw [unread_follow, Session.unread_after, Session.unread_noteCall, Session.unread_record]

/-- What the next line of a shell leads to, in a session with `n` bytes left. -/
inductive Beat (σ : Type) (n : Nat) where
  /-- The shell ends. -/
  | ended (result : Except Error Unit) (session : Session σ) (le : session.unread.length ≤ n)
  /-- The shell goes on. -/
  | again (session : Session σ) (lt : session.unread.length < n)
  /-- The shell goes on after a mode. -/
  | into (mode : Shell σ) (session : Session σ) (lt : session.unread.length < n)

/-- What a line leads to, once it has been handled. -/
def lead {n : Nat} (shell : Shell σ) (turn : Turn σ) (lt : turn.session.unread.length < n) :
    Beat σ n :=
  match turn.next with
  | .leave => .ended (.ok ()) turn.session (Nat.le_of_lt lt)
  | .stop e => .ended (.error e) turn.session (Nat.le_of_lt lt)
  | .again => .again turn.session lt
  | .enter name =>
    match shell.mode? name with
    | none => .ended (.error (.unknownMode name)) turn.session (Nat.le_of_lt lt)
    | some mode => .into mode turn.session lt

/-- Reads a line and does what it asks for. -/
def beat (shell : Shell σ) (s : Session σ) : Beat σ s.unread.length :=
  match h : (s.ask shell.prompt).1 with
  | .error e => .ended (.error (.stdio e)) (s.ask shell.prompt).2 (s.unread_ask_le shell.prompt)
  | .ok none => .ended (.ok ()) (s.ask shell.prompt).2 (s.unread_ask_le shell.prompt)
  | .ok (some line) =>
    shell.lead (shell.handle line (s.ask shell.prompt).2)
      (Nat.lt_of_le_of_lt (Nat.le_of_eq (congrArg List.length (shell.unread_handle line _)))
        (Session.unread_ask_lt h))

/-- What a run leaves, in a session with at most `n` bytes left. -/
structure Finished (σ : Type) (n : Nat) where
  result : Except Error Unit
  session : Session σ
  le : session.unread.length ≤ n

/-- What a run leaves, seen from before it. -/
def Finished.widen {m n : Nat} (f : Finished σ m) (h : m ≤ n) : Finished σ n :=
  ⟨f.result, f.session, Nat.le_trans f.le h⟩

/-- Runs a shell on a session. -/
def runWithin (shell : Shell σ) (s : Session σ) : Finished σ s.unread.length :=
  match shell.beat s with
  | .ended result t le => ⟨result, t, le⟩
  | .again t lt => (runWithin shell t).widen (Nat.le_of_lt lt)
  | .into mode t lt =>
    let inner := runWithin mode t
    have hi := Nat.lt_of_le_of_lt inner.le lt
    match inner.result with
    | .error e => ⟨.error e, inner.session, Nat.le_of_lt hi⟩
    | .ok () => (runWithin shell inner.session).widen (Nat.le_of_lt hi)
termination_by s.unread.length

/-- What a run leaves. -/
structure Ending (σ : Type) where
  result : Except Error Unit
  session : Session σ

/-- Runs a shell on a session. -/
def run (shell : Shell σ) (s : Session σ) : Ending σ :=
  let f := shell.runWithin s
  ⟨f.result, f.session⟩

/-- Runs a mode of a shell on a session. -/
def enter (shell : Shell σ) (name : String) (s : Session σ) : Ending σ :=
  match shell.mode? name with
  | none => ⟨.error (.unknownMode name), s⟩
  | some mode => mode.run s

/-- What remains of a run after the beat that has begun it. -/
def Beat.play {n : Nat} (shell : Shell σ) : Beat σ n → Ending σ
  | .ended result t _ => ⟨result, t⟩
  | .again t _ => shell.run t
  | .into mode t _ =>
    match (mode.run t).result with
    | .error e => ⟨.error e, (mode.run t).session⟩
    | .ok () => shell.run (mode.run t).session

theorem run_beat (shell : Shell σ) (s : Session σ) :
    shell.run s = (shell.beat s).play shell := by
  unfold run
  rw [runWithin]
  cases shell.beat s with
  | ended => rfl
  | again => rfl
  | into mode t lt =>
    simp only [Beat.play, run]
    split <;> simp only [Finished.widen]

/-- What remains of a run once a line has been handled. -/
def resume (shell : Shell σ) (turn : Turn σ) : Ending σ :=
  match turn.next with
  | .leave => ⟨.ok (), turn.session⟩
  | .stop e => ⟨.error e, turn.session⟩
  | .again => shell.run turn.session
  | .enter name =>
    match (shell.enter name turn.session).result with
    | .error e => ⟨.error e, (shell.enter name turn.session).session⟩
    | .ok () => shell.run (shell.enter name turn.session).session

theorem play_lead {n : Nat} (shell : Shell σ) (turn : Turn σ)
    (lt : turn.session.unread.length < n) :
    (shell.lead turn lt).play shell = shell.resume turn := by
  obtain ⟨next, t⟩ := turn
  cases next with
  | again => rfl
  | leave => rfl
  | stop => rfl
  | enter name =>
    simp only [lead, resume, enter]
    cases shell.mode? name <;> rfl

theorem run_eq (shell : Shell σ) (s : Session σ) :
    shell.run s =
      match (s.ask shell.prompt).1 with
      | .error e => ⟨.error (.stdio e), (s.ask shell.prompt).2⟩
      | .ok none => ⟨.ok (), (s.ask shell.prompt).2⟩
      | .ok (some line) => shell.resume (shell.handle line (s.ask shell.prompt).2) := by
  rw [run_beat]
  unfold beat
  split <;> rename_i h <;> simp only [h]
  · rfl
  · rfl
  · exact play_lead _ _ _

end Shell

end Console
