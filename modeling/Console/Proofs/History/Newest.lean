import Console.History
import Console.Proofs.Text.Words
import Mathlib.Data.List.Destutter
import Mathlib.Data.List.DropRight

/-!
# The newest commands

A history decides on each line against its newest entry only, and drops its oldest entry. All the
same it holds the newest of all the commands that were entered, as many as its bound allows.

* `commands`: the commands among some lines;
* `History.addAll`: what some lines make of a history;
* `commands_concat`, **`History.entries_add`**: one more line;
* **`History.addAll_empty`**, **`History.entries_newest`**: all lines, and a bound that is lowered
  afterwards.
-/

namespace Console

open Text

/-- The commands among some lines: those that are not blank, without the blanks at their ends, and
each run of equal ones only once. -/
def commands (lines : List String) : List String :=
  ((lines.map trim).filter (· ≠ "")).destutter (· ≠ ·)

/-! ## The last members of a list -/

section Last

variable {α : Type} {l : List α} {n : ℕ}

theorem length_rtake (l : List α) (n : ℕ) : (l.rtake n).length = min n l.length := by
  rw [List.rtake, List.length_drop]
  omega

theorem rtake_of_length_le (h : l.length ≤ n) : l.rtake n = l := by
  rw [List.rtake, Nat.sub_eq_zero_of_le h, List.drop_zero]

theorem rtake_rtake (l : List α) (m n : ℕ) : (l.rtake m).rtake n = l.rtake (min n m) := by
  rw [List.rtake, length_rtake, List.rtake, List.rtake, List.drop_drop]
  congr 1
  omega

theorem rtake_rtake_concat (l : List α) (n : ℕ) (a : α) :
    (l.rtake n ++ [a]).rtake n = (l ++ [a]).rtake n := by
  cases n with
  | zero => rw [List.rtake_zero, List.rtake_zero]
  | succ n =>
    rw [List.rtake_concat_succ, List.rtake_concat_succ, rtake_rtake, min_eq_left (Nat.le_succ n)]

theorem tail_append_eq_rtake (hn : n ≠ 0) (h : l.length = n) (a : α) :
    l.tail ++ [a] = (l ++ [a]).rtake n := by
  cases l with
  | nil => exact absurd h.symm hn
  | cons b l =>
    rw [← h, List.length_cons, List.rtake_concat_succ, List.rtake, List.length_cons,
      Nat.add_sub_cancel_left, List.drop_one]

theorem getLast?_rtake (h : n ≠ 0) : (l.rtake n).getLast? = l.getLast? := by
  rw [List.rtake, List.getLast?_drop]
  split_ifs with hlength
  · have hnil : l = [] := List.length_eq_zero_iff.mp (by omega)
    rw [hnil, List.getLast?_nil]
  · rfl

theorem destutter_concat [DecidableEq α] (l : List α) (a : α) :
    (l ++ [a]).destutter (· ≠ ·) =
      if (l.destutter (· ≠ ·)).getLast? = some a then l.destutter (· ≠ ·)
      else l.destutter (· ≠ ·) ++ [a] := by
  cases l with
  | nil => simp
  | cons b l =>
    rw [List.cons_append, List.destutter_cons', List.destutter_cons']
    induction l generalizing b with
    | nil => by_cases hb : b = a <;> simp [hb]
    | cons c l ih =>
      rw [List.cons_append]
      by_cases hbc : b ≠ c
      · have hne : l.destutter' (· ≠ ·) c ≠ [] := List.destutter'_ne_nil l (· ≠ ·)
        rw [List.destutter'_cons_pos _ hbc, List.destutter'_cons_pos _ hbc, ih c,
          List.getLast?_cons_of_ne_nil hne]
        split_ifs <;> rfl
      · rw [List.destutter'_cons_neg _ hbc, List.destutter'_cons_neg _ hbc, ih b]

end Last

/-! ## Commands -/

theorem commands_concat (lines : List String) (line : String) :
    commands (lines ++ [line]) =
      if trim line = "" ∨ (commands lines).getLast? = some (trim line) then commands lines
      else commands lines ++ [trim line] := by
  unfold commands
  rw [List.map_append, List.map_singleton, List.filter_append]
  by_cases hblank : trim line = ""
  · rw [if_pos (.inl hblank), List.filter_cons_of_neg (by simpa using hblank), List.filter_nil,
      List.append_nil]
  · rw [List.filter_cons_of_pos (by simpa using hblank), List.filter_nil, destutter_concat]
    simp only [hblank, false_or]

attribute [ext] History

namespace History

variable {h : History} {line : String}

/-- What some lines make of a history, one after another. -/
def addAll (h : History) (lines : List String) : History := lines.foldl add h

theorem addAll_cons (h : History) (line : String) (lines : List String) :
    h.addAll (line :: lines) = (h.add line).addAll lines := List.foldl_cons

theorem addAll_concat (h : History) (lines : List String) (line : String) :
    h.addAll (lines ++ [line]) = (h.addAll lines).add line := by
  rw [addAll, List.foldl_append, List.foldl_cons, List.foldl_nil, addAll]

@[simp] theorem maxLen_add (h : History) (line : String) : (h.add line).maxLen = h.maxLen := by
  unfold add
  dsimp only
  split_ifs <;> rfl

/-- **One more line** is one more entry, unless it is blank or the newest entry. -/
theorem entries_add (hsize : h.size ≤ h.maxLen) :
    (h.add line).entries =
      if trim line = "" ∨ h.entries.getLast? = some (trim line) then h.entries
      else (h.entries ++ [trim line]).rtake h.maxLen := by
  unfold add
  simp only [Bool.or_eq_true, String.isEmpty_iff, beq_iff_eq]
  by_cases hskip : trim line = "" ∨ h.entries.getLast? = some (trim line)
  · rw [if_pos hskip, if_pos]
    exact hskip.elim (fun hblank => .inl (.inl hblank)) .inr
  · obtain ⟨hblank, hlast⟩ := not_or.mp hskip
    rw [if_neg hskip]
    by_cases hzero : h.maxLen = 0
    · have hnil : h.entries = [] := List.length_eq_zero_iff.mp (Nat.le_zero.mp (hzero ▸ hsize))
      rw [if_pos (.inl (.inr hzero)), hzero, List.rtake_zero, hnil]
    · rw [if_neg (by simp [hblank, hzero, hlast])]
      split_ifs with hfull
      · exact tail_append_eq_rtake hzero hfull _
      · rw [rtake_of_length_le]
        rw [List.length_append, List.length_singleton]
        exact Nat.lt_of_le_of_ne hsize hfull

/-- **A history of the newest commands** is one still after another line. -/
theorem add_newest (m : ℕ) (lines : List String) (line : String) :
    (⟨(commands lines).rtake m, m⟩ : History).add line =
      ⟨(commands (lines ++ [line])).rtake m, m⟩ := by
  have hsize : (⟨(commands lines).rtake m, m⟩ : History).size ≤ m :=
    (length_rtake _ m).trans_le (Nat.min_le_left m _)
  refine History.ext ?_ (maxLen_add _ line)
  rw [entries_add hsize, commands_concat]
  dsimp only
  by_cases hm : m = 0
  · subst hm
    simp only [List.rtake_zero, ite_self]
  · rw [getLast?_rtake hm]
    split_ifs
    · rfl
    · exact rtake_rtake_concat _ m _

/-- **All lines** leave the newest commands in a history that was empty. -/
theorem addAll_empty (m : ℕ) (lines : List String) :
    (empty m).addAll lines = ⟨(commands lines).rtake m, m⟩ := by
  induction lines using List.reverseRecOn with
  | nil => exact History.ext (List.rtake_nil m).symm rfl
  | append_singleton lines line ih => rw [addAll_concat, ih, add_newest]

/-- **A history holds the newest commands.** Those of some lines that it keeps under a bound are the
last of them, up to the bound; and a bound that is lowered afterwards leaves what it would have kept
from the beginning. -/
theorem entries_newest (m : ℕ) (lines : List String) :
    ((empty m).addAll lines).entries = (commands lines).rtake m ∧
      ∀ m' ≤ m, (((empty m).addAll lines).setMaxLen m').entries =
        ((empty m').addAll lines).entries := by
  refine ⟨by rw [addAll_empty], fun m' hm' => ?_⟩
  rw [addAll_empty, addAll_empty]
  calc ((commands lines).rtake m).rtake m'
      = (commands lines).rtake (min m' m) := rtake_rtake _ _ _
    _ = (commands lines).rtake m' := by rw [min_eq_left hm']

/-- With room for one entry a repetition is told from a command that was entered before. -/
theorem entries_newest_two :
    let lines := ["show", " \t", " show ", "exit\r", "\u3000show", "show"]
    commands lines = ["show", "exit", "show"] ∧
      ((empty 2).addAll lines).entries = ["exit", "show"] ∧
      (((empty 2).addAll lines).setMaxLen 1).entries = ((empty 1).addAll lines).entries ∧
      ((empty 1).addAll lines).entries = ["show"] := by
  intro lines
  have hcommands : commands lines = ["show", "exit", "show"] := by decide +kernel
  obtain ⟨htwo, hlowered⟩ := entries_newest 2 lines
  have hone := (entries_newest 1 lines).1
  rw [hcommands] at htwo hone
  exact ⟨hcommands, htwo, hlowered 1 (by decide), hone⟩

end History

end Console
