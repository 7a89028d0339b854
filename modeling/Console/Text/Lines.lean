/-!
# Bytes and lines of a text

* `Utf8.encode`, `Utf8.decode`: a text and its bytes; bytes that are not UTF-8 have no text;
* `lines`: the parts of a text between its line feeds.
-/

namespace Console.Text.Utf8

/-- The bytes of a text. -/
def encode (s : String) : List UInt8 := s.toUTF8.data.toList

/-- The text of some bytes, if they are UTF-8. -/
def decode (bytes : List UInt8) : Option String := String.fromUTF8? ⟨bytes.toArray⟩

end Console.Text.Utf8

namespace Console.Text

/-- Puts a character in front of the first line, or a line feed in front of all. -/
def consLine (c : Char) : List (List Char) → List (List Char)
  | [] => if c = '\n' then [[], []] else [[c]]
  | l :: ls => if c = '\n' then [] :: l :: ls else (c :: l) :: ls

/-- The parts of a text between its line feeds; there is one more of them than line feeds. -/
def lines (cs : List Char) : List (List Char) := cs.foldr consLine [[]]

theorem lines_nil : lines [] = [[]] := rfl

theorem lines_cons (c : Char) (cs : List Char) : lines (c :: cs) = consLine c (lines cs) := rfl

theorem lines_ne_nil (cs : List Char) : lines cs ≠ [] := by
  cases cs with
  | nil => simp [lines_nil]
  | cons c cs =>
    rw [lines_cons]
    cases lines cs <;> simp only [consLine] <;> split <;> simp

theorem lines_append {l : List Char} (h : '\n' ∉ l) (cs : List Char) :
    lines (l ++ '\n' :: cs) = l :: lines cs := by
  induction l with
  | nil =>
    obtain ⟨m, ms, hcs⟩ := List.exists_cons_of_ne_nil (lines_ne_nil cs)
    rw [List.nil_append, lines_cons, hcs, consLine, if_pos rfl]
  | cons c l ih =>
    rw [List.mem_cons, not_or] at h
    rw [List.cons_append, lines_cons, ih h.2, consLine, if_neg (Ne.symm h.1)]

theorem not_mem_of_mem_lines (cs : List Char) : ∀ l ∈ lines cs, '\n' ∉ l := by
  induction cs with
  | nil => simp [lines_nil]
  | cons c cs ih =>
    obtain ⟨m, ms, hcs⟩ := List.exists_cons_of_ne_nil (lines_ne_nil cs)
    rw [hcs] at ih
    obtain ⟨hm, hms⟩ := List.forall_mem_cons.mp ih
    rw [lines_cons, hcs, consLine]
    split
    · exact List.forall_mem_cons.mpr ⟨List.not_mem_nil, ih⟩
    · rename_i hc
      exact List.forall_mem_cons.mpr ⟨by simp [Ne.symm hc, hm], hms⟩

end Console.Text
