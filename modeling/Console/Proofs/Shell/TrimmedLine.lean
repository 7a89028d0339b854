import Console.Proofs.Text.Place
import Console.Shell.Basic

/-!
# Splitting a trimmed line

A line is trimmed before it is split. Most often this makes no difference, as the characters that
trimming takes away would separate words. It makes one if the first of them is behind a backslash,
which then stands for itself.

* `Place.escapes`, `EndsEscaping`: places and texts whose last character is such a backslash;
* **`Place.read_separators`**: characters that separate words, behind any other place;
* `OuterSeparators`, **`Shell.parse_eq_split_iff`**: the lines whose trimming makes no difference.
-/

namespace Console

open Text Words

namespace Text.Words

variable {p : Place} {c : Char} {cs : List Char}

/-- Behind a backslash outside quotes, which makes the next character literal. -/
def Place.escapes : Place → Bool
  | escape | escapeInWord _ => true
  | _ => false

/-- The text ends in a backslash that would make the next character literal, outside quotes. -/
def EndsEscaping (cs : List Char) : Prop := (Place.between.after cs).escapes = true

instance (cs : List Char) : Decidable (EndsEscaping cs) := inferInstanceAs (Decidable (_ = _))

namespace Place

theorem escapes_next (h : isSeparator c = true) : (p.next c).escapes = false := by
  rcases isSeparator_iff.mp h with rfl | rfl | rfl <;> cases p <;> rfl

theorem read_separator (hc : isSeparator c = true) (hp : p.escapes = false) :
    p.read [c] = p.read [] := by
  rcases isSeparator_iff.mp hc with rfl | rfl | rfl <;> cases p <;> first | rfl | cases hp

/-- **Separators at the end of a line** make no difference, unless the first is behind a backslash. -/
theorem read_separators (h : ∀ c ∈ cs, isSeparator c = true) (hp : p.escapes = false) :
    p.read cs = p.read [] := by
  induction cs generalizing p with
  | nil => rfl
  | cons c cs ih =>
    have hc : isSeparator c = true := h c List.mem_cons_self
    rw [read_cons, ih (fun d hd => h d (List.mem_cons_of_mem c hd)) (escapes_next hc), ← read_cons,
      read_separator hc hp]

/-- Behind a backslash the first separator makes a difference: it is read in place of the
backslash, or vanishes with it. -/
theorem read_separators_ne (h : ∀ d ∈ c :: cs, isSeparator d = true) (hp : p.escapes = true) :
    p.read (c :: cs) ≠ p.read [] := by
  have hc : isSeparator c = true := h c List.mem_cons_self
  rw [read_cons, read_separators (fun d hd => h d (List.mem_cons_of_mem c hd)) (escapes_next hc),
    ← read_cons]
  cases p with
  | escape => rcases isSeparator_iff.mp hc with rfl | rfl | rfl <;> decide
  | escapeInWord w =>
    rcases isSeparator_iff.mp hc with rfl | rfl | rfl <;>
      simp [read, Words.inWord, emit, ← String.toList_inj]
  | _ => cases hp

end Place

theorem between_separators_append (h : ∀ c ∈ cs, isSeparator c = true) (ds : List Char) :
    between (cs ++ ds) = between ds := by
  induction cs with
  | nil => rfl
  | cons c cs ih =>
    have hcs := ih fun d hd => h d (List.mem_cons_of_mem c hd)
    rcases isSeparator_iff.mp (h c List.mem_cons_self) with rfl | rfl | rfl <;> exact hcs

end Text.Words

/-- The blanks at the ends of a line are spaces, tabs and line feeds. -/
structure OuterSeparators (line : String) : Prop where
  lead : ∀ c ∈ line.toList.takeWhile isBlank, isSeparator c = true
  tail : ∀ c ∈ line.toList.rtakeWhile isBlank, isSeparator c = true

instance (line : String) : Decidable (OuterSeparators line) :=
  decidable_of_iff ((line.toList.takeWhile isBlank).all isSeparator = true ∧
      (line.toList.rtakeWhile isBlank).all isSeparator = true)
    ⟨fun h => ⟨List.all_eq_true.mp h.1, List.all_eq_true.mp h.2⟩,
      fun h => ⟨List.all_eq_true.mpr h.lead, List.all_eq_true.mpr h.tail⟩⟩

variable {line : String}

theorem OuterSeparators.exists_append (h : OuterSeparators line) : ∃ lead tail,
    line.toList = lead ++ (trim line).toList ++ tail ∧ (∀ c ∈ lead, isSeparator c = true) ∧
      (∀ c ∈ tail, isSeparator c = true) ∧
      (trim line ≠ "" → (endsBlank line = true ↔ tail ≠ [])) := by
  have hline := toList_eq_trim line
  have hblank : ∀ c ∈ (trimStart line.toList).rtakeWhile isBlank, isBlank c = true :=
    fun c hc => List.mem_rtakeWhile_imp hc
  refine ⟨_, _, hline, h.lead, fun c hc => h.tail c ?_, endsBlank_iff_of_trim⟩
  rw [hline, List.rtakeWhile, List.reverse_append, List.mem_reverse,
    List.takeWhile_append_of_pos fun d hd => hblank d (List.mem_reverse.mp hd)]
  exact List.mem_append_left _ (List.mem_reverse.mpr hc)

namespace Shell

/-- **Trimming a line** makes no difference to its fragments, if the blanks at its ends are spaces,
tabs and line feeds, unless there are some behind a backslash that is outside quotes and comments and
not literal itself. There it always makes one. -/
theorem parse_eq_split_iff (h : OuterSeparators line) :
    parse line = Words.split line ↔ ¬ (endsBlank line = true ∧ EndsEscaping (trim line).toList) := by
  obtain ⟨lead, tail, hline, hlead, htail, hends⟩ := h.exists_append
  have hsplit : Words.split line = between ((trim line).toList ++ tail) := by
    rw [Words.split, hline, List.append_assoc, between_separators_append hlead]
  have hparse : parse line = between ((trim line).toList ++ []) := by
    rw [parse, Words.split, List.append_nil]
  have hread : parse line = Words.split line ↔
      (Place.between.after (trim line).toList).read tail =
        (Place.between.after (trim line).toList).read [] := by
    rw [hsplit, hparse, between_append, between_append, eq_comm]
    exact (Option.map_injective (List.append_right_injective _)).eq_iff
  rw [hread]
  by_cases hescaping : EndsEscaping (trim line).toList
  · have hne : trim line ≠ "" := by
      intro hempty
      rw [hempty] at hescaping
      cases hescaping
    rw [hends hne, and_iff_left hescaping, not_ne_iff]
    cases tail with
    | nil => exact iff_of_true rfl rfl
    | cons c cs =>
      exact iff_of_false (Place.read_separators_ne htail hescaping) (List.cons_ne_nil c cs)
  · exact iff_of_true (Place.read_separators htail (Bool.eq_false_iff.mpr hescaping))
      fun hboth => hescaping hboth.2

/-- An escaped space inside a line and a comment at its end are no obstacle, nor are quotes. -/
theorem parse_eq_split_iff_show :
    let line := "\t show a\\ b \"c d\" # \\ \n"
    OuterSeparators line ∧ parse line = Words.split line ∧
      Words.split line = some ["show", "a b", "c d"] := by
  intro line
  have h : OuterSeparators line := by decide +kernel
  exact ⟨h, (parse_eq_split_iff h).mpr (by decide +kernel), by decide +kernel⟩

/-- Trimming takes the space away that a backslash makes part of a word. -/
theorem parse_ne_split_escaped :
    OuterSeparators "a\\ " ∧ parse "a\\ " = some ["a\\"] ∧ Words.split "a\\ " = some ["a "] :=
  ⟨by decide +kernel, by decide +kernel, by decide +kernel⟩

end Shell

end Console
