import Console.Error

/-!
# Sinks

Where output goes. A sink may have a limit on the bytes it takes; a text that would exceed it is
refused as a whole.

* `Sink.write`: writes one text;
* `Sink.Refusal`, `Sink.print`: writes one of several texts, some of which may be taken already
  when one is refused.
-/

namespace Console

/-- A place for output. -/
structure Sink where
  /-- What has been written. -/
  written : String := ""
  /-- The most bytes it takes. -/
  limit : Option Nat := none

namespace Sink

/-- Writes a text. -/
def write (text : String) : Sink → Except IoFailure Sink
  | ⟨written, none⟩ => .ok ⟨written ++ text, none⟩
  | ⟨written, some limit⟩ =>
    if written.utf8ByteSize + text.utf8ByteSize ≤ limit then .ok ⟨written ++ text, some limit⟩
    else .error .sinkClosed

theorem write_unlimited (text written : String) :
    write text ⟨written, none⟩ = .ok ⟨written ++ text, none⟩ := rfl

/-- A text was refused. -/
structure Refusal where
  cause : IoFailure
  /-- The sink with what it has taken before. -/
  sink : Sink

/-- The text of the failure. -/
def Refusal.message (r : Refusal) : String := r.cause.message

/-- Writes one of several texts. -/
def print (text : String) (s : Sink) : Except Refusal Sink :=
  (s.write text).mapError fun cause => ⟨cause, s⟩

end Sink

end Console
