import Console.Sink
import Console.Value

/-!
# Handlers

A handler is what a command does. It sees the line and its arguments and acts on a world of type
`σ`, by writing texts one after another and then finishing. It learns of each text whether it was
written.

* `Invocation`, `Outcome`: what a handler gets and what it asks of the shell;
* `Conduct`: what a handler does, as a tree of its choices; `Conduct.run` plays it against a sink;
* `Conduct.PassesOn`: a text that is not written ends the conduct with that failure.
-/

namespace Console

/-- What the shell does next. -/
inductive Outcome where
  /-- Read the next line. -/
  | continue
  /-- Leave this shell. -/
  | exit
  /-- Go into the mode of this name, and resume here afterwards. -/
  | enter (mode : String)
  deriving DecidableEq, Repr

/-- What a handler gets to see. -/
structure Invocation where
  /-- The line as it was typed. -/
  line : String
  /-- The arguments in the order in which they were typed. -/
  args : List Value

namespace Invocation

/-- The argument at a place, if it is a word. -/
def word (i : Invocation) (place : Nat) : Option String := i.args[place]?.bind Value.word?

/-- The argument at a place, if it is an integer. -/
def integer (i : Invocation) (place : Nat) : Option Int64 := i.args[place]?.bind Value.integer?

end Invocation

/-- What a handler does. -/
inductive Conduct (σ : Type) where
  /-- Finish, and leave the world so. -/
  | finish (result : Except Error Outcome) (world : σ)
  /-- Write a text, and go on as the result of that demands. -/
  | emit (text : String) (next : Except IoFailure Unit → Conduct σ)

/-- What a handler leaves. -/
structure Reply (σ : Type) where
  result : Except Error Outcome
  world : σ
  sink : Sink

namespace Conduct

variable {σ : Type}

/-- Plays a conduct against a sink. -/
def run : Conduct σ → Sink → Reply σ
  | finish result world, sink => ⟨result, world, sink⟩
  | emit text next, sink =>
    match sink.write text with
    | .ok sink => (next (.ok ())).run sink
    | .error e => (next (.error e)).run sink

/-- A text that is not written ends the conduct with that failure. -/
inductive PassesOn : Conduct σ → Prop where
  | finish (result : Except Error Outcome) (world : σ) : PassesOn (finish result world)
  | emit (text : String) (next : Except IoFailure Unit → Conduct σ)
    (fails : ∀ e, ∃ world, next (.error e) = .finish (.error (.stdio e)) world)
    (goes : PassesOn (next (.ok ()))) : PassesOn (emit text next)

/-- Writes a text, and then goes on. A failure is passed on and leaves the world as `world`. -/
def print (text : String) (world : σ) (next : Conduct σ) : Conduct σ :=
  .emit text fun
    | .ok () => next
    | .error e => .finish (.error (.stdio e)) world

/-- Writes some texts one after another, and then goes on. -/
def printAll (texts : List String) (world : σ) (next : Conduct σ) : Conduct σ :=
  texts.foldr (fun text rest => print text world rest) next

theorem PassesOn.print {text : String} {world : σ} {next : Conduct σ} (h : PassesOn next) :
    PassesOn (print text world next) :=
  .emit _ _ (fun _ => ⟨world, rfl⟩) h

theorem PassesOn.printAll {texts : List String} {world : σ} {next : Conduct σ}
    (h : PassesOn next) : PassesOn (printAll texts world next) := by
  induction texts with
  | nil => exact h
  | cons text texts ih => exact ih.print

end Conduct

/-- What a command does. -/
structure Handler (σ : Type) where
  /-- What it is known by. -/
  name : String
  /-- Tells handlers of one name apart: those with one number are one handler. -/
  serial : Nat
  respond : Invocation → σ → Conduct σ

end Console
