import Console.Sink
import Mathlib.Data.String.Basic

/-!
# Texts one after another

Some texts are written up to the first that is refused. As far as it only matters why, this is one
text. A sink with a limit takes the same as one without, as long as that is within the limit, and
else a beginning of it.

* `Sink.writeAll`; **`mapError_writeAll`**: one text in place of some;
* `Sink.Begins`, `Sink.within`: less of the same output, and the same with a limit;
* **`exists_writeAll`**: some texts with and without a limit.
-/

namespace Console.Sink

variable {s t u : Sink} {text : String} {texts : List String}

/-- Writes some texts, up to the first that is refused. -/
def writeAll (texts : List String) (s : Sink) : Except Refusal Sink :=
  texts.foldlM (fun s text => s.print text) s

theorem writeAll_nil (s : Sink) : s.writeAll [] = .ok s := rfl

theorem writeAll_cons_of_ok (h : s.print text = .ok t) (texts : List String) :
    s.writeAll (text :: texts) = t.writeAll texts := by
  rw [writeAll, List.foldlM_cons, h]
  rfl

theorem writeAll_cons_of_error {r : Refusal} (h : s.print text = .error r) (texts : List String) :
    s.writeAll (text :: texts) = .error r := by
  rw [writeAll, List.foldlM_cons, h]
  rfl

theorem writeAll_singleton (s : Sink) (text : String) : s.writeAll [text] = s.print text := by
  cases h : s.print text with
  | ok t => exact writeAll_cons_of_ok h []
  | error r => exact writeAll_cons_of_error h []

theorem writeAll_append (xs ys : List String) (s : Sink) :
    s.writeAll (xs ++ ys) = s.writeAll xs >>= writeAll ys :=
  List.foldlM_append

theorem print_of_ok (h : s.write text = .ok t) : s.print text = .ok t := by
  rw [print, h]
  rfl

theorem print_of_error {e : IoFailure} (h : s.write text = .error e) :
    s.print text = .error ⟨e, s⟩ := by
  rw [print, h]
  rfl

/-! ## One text in place of some -/

theorem write_append (s : Sink) (a b : String) :
    s.write (a ++ b) = s.write a >>= write b := by
  obtain ⟨written, limit⟩ := s
  cases limit with
  | none =>
    rw [write_unlimited, write_unlimited, ← String.append_assoc]
    rfl
  | some limit =>
    by_cases ha : written.utf8ByteSize + a.utf8ByteSize ≤ limit
    · have hfirst : write a ⟨written, some limit⟩ = .ok ⟨written ++ a, some limit⟩ := if_pos ha
      rw [hfirst]
      change _ = write b ⟨written ++ a, some limit⟩
      simp only [write, String.utf8ByteSize_append, Nat.add_assoc, String.append_assoc]
    · have hfirst : write a ⟨written, some limit⟩ = .error .sinkClosed := if_neg ha
      rw [hfirst, write, String.utf8ByteSize_append, if_neg (by omega)]
      rfl

theorem mapError_print (s : Sink) (text : String) :
    (s.print text).mapError Refusal.cause = s.write text := by
  cases h : s.write text with
  | ok t =>
    rw [print_of_ok h]
    rfl
  | error e =>
    rw [print_of_error h]
    rfl

/-- **As far as it only matters why they are refused, some texts are one text.** -/
theorem mapError_writeAll (h : texts ≠ []) (s : Sink) :
    (s.writeAll texts).mapError Refusal.cause = s.write (String.join texts) := by
  induction texts generalizing s with
  | nil => exact absurd rfl h
  | cons text texts ih =>
    rw [String.join_cons]
    by_cases hlast : texts = []
    · rw [hlast, writeAll_singleton, mapError_print, String.join_nil, String.append_empty]
    · rw [write_append]
      cases hfirst : s.write text with
      | ok t =>
        rw [writeAll_cons_of_ok (print_of_ok hfirst)]
        exact ih hlast t
      | error e =>
        rw [writeAll_cons_of_error (print_of_error hfirst)]
        rfl

/-! ## With and without a limit -/

/-- What `t` has taken begins with what `s` has taken. -/
def Begins (s t : Sink) : Prop := ∃ more, t.written = s.written ++ more

theorem Begins.refl (s : Sink) : s.Begins s := ⟨"", String.append_empty.symm⟩

theorem Begins.trans (h : s.Begins t) (k : t.Begins u) : s.Begins u := by
  obtain ⟨more, hmore⟩ := h
  obtain ⟨rest, hrest⟩ := k
  exact ⟨more ++ rest, by rw [hrest, hmore, String.append_assoc]⟩

/-- The number of bytes that have been written. -/
def size (s : Sink) : ℕ := s.written.utf8ByteSize

theorem Begins.size_le (h : s.Begins t) : s.size ≤ t.size := by
  obtain ⟨more, hmore⟩ := h
  rw [size, size, hmore, String.utf8ByteSize_append]
  exact Nat.le_add_right _ _

/-- The sink with a limit of `n` bytes. -/
def within (n : ℕ) (s : Sink) : Sink := { s with limit := some n }

theorem exists_write (h : s.limit = none) (text : String) :
    ∃ t, s.write text = .ok t ∧ t.limit = none ∧ s.Begins t ∧
      ∀ n, (s.within n).write text =
        if t.size ≤ n then .ok (t.within n) else .error .sinkClosed := by
  obtain ⟨written, limit⟩ := s
  obtain rfl : limit = none := h
  refine ⟨_, write_unlimited text written, rfl, ⟨text, rfl⟩, fun n => ?_⟩
  rw [size, String.utf8ByteSize_append]
  rfl

/-- **Some texts with and without a limit.** Without one they are all taken. With one that they
keep they are taken too, and else one of them is refused. -/
theorem exists_writeAll (h : s.limit = none) (texts : List String) :
    ∃ t, s.writeAll texts = .ok t ∧ t.limit = none ∧ s.Begins t ∧
      (∀ n, t.size ≤ n → (s.within n).writeAll texts = .ok (t.within n)) ∧
      ∀ n, s.size ≤ n → n < t.size → ∃ r, (s.within n).writeAll texts = .error r ∧
        r.cause = .sinkClosed ∧ r.sink.Begins t := by
  induction texts generalizing s with
  | nil =>
    exact ⟨s, rfl, h, .refl s, fun _ _ => rfl, fun n hn hlt => absurd hlt (Nat.not_lt.mpr hn)⟩
  | cons text texts ih =>
    obtain ⟨t, hwrite, ht, hst, hwithin⟩ := exists_write h text
    obtain ⟨u, hrest, hu, htu, hfits, hexceeds⟩ := ih ht
    refine ⟨u, ?_, hu, hst.trans htu, fun n hn => ?_, fun n hs hn => ?_⟩
    · rw [writeAll_cons_of_ok (print_of_ok hwrite), hrest]
    · have hfirst := hwithin n
      rw [if_pos (htu.size_le.trans hn)] at hfirst
      rw [writeAll_cons_of_ok (print_of_ok hfirst), hfits n hn]
    · have hfirst := hwithin n
      by_cases hkeeps : t.size ≤ n
      · rw [if_pos hkeeps] at hfirst
        rw [writeAll_cons_of_ok (print_of_ok hfirst)]
        exact hexceeds n hkeeps hn
      · rw [if_neg hkeeps] at hfirst
        exact ⟨_, writeAll_cons_of_error (print_of_error hfirst) texts, rfl, hst.trans htu⟩

end Console.Sink
