import Console.Proofs.History.Newest

/-!
# Histories as they come about

Whatever is done with a history, it does not exceed its bound, its entries are trimmed commands, and
no entry repeats the one before. These are the histories whose entries are their own commands.

* `History.Proper`: the histories of this kind;
* **`Proper.add`**, **`Proper.setMaxLen`**, **`proper_ofText`**: one step each;
* `History.Reached`, **`Reached.proper`**: all that is done with a history, from any bound and any
  file on;
* `Operation`, `History.performAll`, **`performAll_within_bound`**: the same as a sequence of
  operations, with the bound that it leaves.
-/

namespace Console

open Text

namespace History

/-- A history within its bound, whose entries are trimmed, not blank, and different from their
neighbours. -/
structure Proper (h : History) : Prop where
  size_le : h.size ≤ h.maxLen
  trimmed : ∀ e ∈ h.entries, e ≠ "" ∧ trim e = e
  apart : h.entries.IsChain (· ≠ ·)

variable {h : History} {e line text : String} {lines : List String} {m : ℕ}

theorem proper_empty (m : ℕ) : (empty m).Proper :=
  ⟨Nat.zero_le m, nofun, .nil⟩

theorem Proper.rtake (hh : h.Proper) (m : ℕ) : (⟨h.entries.rtake m, m⟩ : History).Proper where
  size_le := (length_rtake _ m).trans_le (Nat.min_le_left m _)
  trimmed e he := hh.trimmed e (List.mem_of_mem_drop he)
  apart := hh.apart.drop _

theorem Proper.setMaxLen (hh : h.Proper) (m : ℕ) : (h.setMaxLen m).Proper := hh.rtake m

/-- **One more line** leaves a history proper. -/
theorem Proper.add (hh : h.Proper) (line : String) : (h.add line).Proper := by
  have hentries : (h.add line).entries =
      if trim line = "" ∨ h.entries.getLast? = some (trim line) then h.entries
      else (h.entries ++ [trim line]).rtake h.maxLen := entries_add hh.size_le
  split_ifs at hentries with hskip
  · rw [show h.add line = h from History.ext hentries (maxLen_add h line)]
    exact hh
  · obtain ⟨hblank, hlast⟩ := not_or.mp hskip
    have hlonger : (⟨h.entries ++ [trim line], h.size + 1⟩ : History).Proper := by
      refine ⟨(List.length_append).le, fun e he => ?_, ?_⟩
      · rcases List.mem_append.mp he with he | he
        · exact hh.trimmed e he
        · rw [List.mem_singleton.mp he]
          exact ⟨hblank, trim_trim line⟩
      · refine List.isChain_append.mpr ⟨hh.apart, .singleton _, fun e he f hf heq => hlast ?_⟩
        rw [he, heq, ← Option.mem_some_iff.mp hf]
    rw [show h.add line = ⟨(h.entries ++ [trim line]).rtake h.maxLen, h.maxLen⟩ from
      History.ext hentries (maxLen_add h line)]
    exact hlonger.rtake h.maxLen

theorem Proper.addAll (hh : h.Proper) (lines : List String) : (h.addAll lines).Proper := by
  induction lines generalizing h with
  | nil => exact hh
  | cons line lines ih =>
    rw [addAll_cons]
    exact ih (hh.add line)

theorem Proper.commands_eq (hh : h.Proper) : commands h.entries = h.entries := by
  have hmap : h.entries.map trim = h.entries :=
    (List.map_congr_left fun e he => (hh.trimmed e he).2).trans (List.map_id _)
  have hfilter : h.entries.filter (· ≠ "") = h.entries :=
    List.filter_eq_self.mpr fun e he => decide_eq_true (hh.trimmed e he).1
  rw [commands, hmap, hfilter, List.destutter_of_isChain _ _ hh.apart]

/-! ## Files -/

theorem ofText_eq_addAll (m : ℕ) (text : String) :
    ofText m text = (empty m).addAll ((Text.lines text.toList).map String.ofList) :=
  List.foldl_map.symm

theorem proper_ofText (m : ℕ) (text : String) : (ofText m text).Proper := by
  rw [ofText_eq_addAll]
  exact (proper_empty m).addAll _

theorem ofText_empty (m : ℕ) : ofText m "" = empty m := by
  have hcommands : commands ([] ++ [""]) = [] := by
    rw [commands_concat, if_pos (.inl (by decide))]
    rfl
  rw [ofText_eq_addAll, addAll_empty]
  exact History.ext ((congrArg (List.rtake · m) hcommands).trans (List.rtake_nil m)) rfl

theorem exists_of_load {fs : Files} {path : String} (hload : load fs path m = .ok h) :
    ∃ text, h = ofText m text := by
  unfold load at hload
  split at hload
  · cases hload
    exact ⟨"", (ofText_empty m).symm⟩
  · cases hload
  · cases hload
  · split at hload
    · cases hload
    · cases hload
      exact ⟨_, rfl⟩

/-! ## Everything that is done with a history -/

/-- The histories that come of an empty one, or of one from a file, when lines that are allowed are
added and the bound is changed. -/
inductive Reached (allowed : String → Prop) : History → Prop
  | empty (m : ℕ) : Reached allowed (.empty m)
  | load {fs : Files} {path : String} {m : ℕ} {h : History} : History.load fs path m = .ok h →
      Reached allowed h
  | add {h : History} {line : String} : Reached allowed h → allowed line →
      Reached allowed (h.add line)
  | setMaxLen {h : History} : Reached allowed h → (m : ℕ) → Reached allowed (h.setMaxLen m)

/-- **Every history** that comes about is proper. -/
theorem Reached.proper {allowed : String → Prop} (hh : Reached allowed h) : h.Proper := by
  induction hh with
  | empty m => exact proper_empty m
  | load hload =>
    obtain ⟨text, rfl⟩ := exists_of_load hload
    exact proper_ofText _ text
  | add _ _ ih => exact ih.add _
  | setMaxLen _ m ih => exact ih.setMaxLen m

/-! ## One operation after another -/

/-- What can be done with a history. -/
inductive Operation where
  /-- Begin one without entries in its place. -/
  | empty (maxLen : ℕ)
  /-- Read one from a file in its place. -/
  | load (fs : Files) (path : String) (maxLen : ℕ)
  | add (line : String)
  | setMaxLen (maxLen : ℕ)

namespace Operation

/-- What an operation makes of a history. A file that cannot be read leaves it as it is. -/
def perform (h : History) : Operation → History
  | empty m => .empty m
  | load fs path m => (History.load fs path m).toOption.getD h
  | add line => h.add line
  | setMaxLen m => h.setMaxLen m

/-- The bound that an operation gives, if it gives one. -/
def maxLen? : Operation → Option ℕ
  | empty m => some m
  | load fs path m => (History.load fs path m).toOption.map fun _ => m
  | add _ => none
  | setMaxLen m => some m

end Operation

/-- What some operations make of a history, one after another. -/
def performAll (h : History) (ops : List Operation) : History := ops.foldl Operation.perform h

theorem performAll_cons (h : History) (op : Operation) (ops : List Operation) :
    h.performAll (op :: ops) = (op.perform h).performAll ops := List.foldl_cons

/-- **One operation** goes on from a history that comes about to another one. -/
theorem Reached.perform (hh : Reached (fun _ => True) h) (op : Operation) :
    Reached (fun _ => True) (op.perform h) := by
  cases op with
  | empty m => exact .empty m
  | load fs path m =>
    rw [Operation.perform]
    cases hload : History.load fs path m with
    | ok loaded => exact .load hload
    | error e => exact hh
  | add line => exact hh.add trivial
  | setMaxLen m => exact hh.setMaxLen m

theorem Reached.performAll (hh : Reached (fun _ => True) h) (ops : List Operation) :
    Reached (fun _ => True) (h.performAll ops) := by
  induction ops generalizing h with
  | nil => exact hh
  | cons op ops ih =>
    rw [performAll_cons]
    exact ih (hh.perform op)

theorem maxLen_ofText (m : ℕ) (text : String) : (ofText m text).maxLen = m := by
  rw [ofText_eq_addAll, addAll_empty]

theorem maxLen_perform (h : History) (op : Operation) :
    (op.perform h).maxLen = op.maxLen?.getD h.maxLen := by
  cases op with
  | empty m => rfl
  | load fs path m =>
    rw [Operation.perform, Operation.maxLen?]
    cases hload : History.load fs path m with
    | ok loaded =>
      obtain ⟨text, rfl⟩ := exists_of_load hload
      exact maxLen_ofText m text
    | error e => rfl
  | add line => exact maxLen_add h line
  | setMaxLen m => rfl

theorem maxLen_performAll (h : History) (ops : List Operation) :
    (h.performAll ops).maxLen = (ops.filterMap Operation.maxLen?).getLastD h.maxLen := by
  induction ops generalizing h with
  | nil => rfl
  | cons op ops ih =>
    rw [performAll_cons, ih, maxLen_perform]
    cases hm : op.maxLen? with
    | none => rw [List.filterMap_cons_none hm, Option.getD_none]
    | some m => rw [List.filterMap_cons_some hm, List.getLastD_cons, Option.getD_some]

/-- **Whatever is done with a history,** in any order and with any bounds, its bound is the last one
that was given, and it has no more entries than that. No entry is blank, each is as it was trimmed,
and no entry equals the one beside it. -/
theorem performAll_within_bound (m : ℕ) (ops : List Operation) :
    let h := (empty m).performAll ops
    h.maxLen = (ops.filterMap Operation.maxLen?).getLastD m ∧ h.size ≤ h.maxLen ∧
      (∀ e ∈ h.entries, (∃ c ∈ e.toList, isBlank c = false) ∧ trim e = e) ∧
      h.entries.IsChain (· ≠ ·) := by
  intro h
  have hproper : h.Proper := ((Reached.empty m).performAll ops).proper
  refine ⟨maxLen_performAll _ ops, hproper.size_le, fun e he => ?_, hproper.apart⟩
  obtain ⟨hne, htrim⟩ := hproper.trimmed e he
  have hblank : ¬ ∀ c ∈ e.toList, isBlank c = true := fun hall =>
    hne (htrim.symm.trans (trim_eq_empty.mpr hall))
  push Not at hblank
  exact ⟨by simpa using hblank, htrim⟩

/-- The bound is lowered and raised again between the lines, and a file comes in their place; a
directory does not. -/
example :
    let text := "exit\r\nexit\nshow \n\t\nping\n"
    let fs : Files := ⟨.directory [("dir", .directory []), ("old", .file (Utf8.encode text))], []⟩
    let h := (empty 1).performAll
      [.add "show", .setMaxLen 0, .add "ping", .setMaxLen 2, .add " exit", .add "exit ",
        .load fs "old" 2, .load fs "dir" 7, .add "ping", .setMaxLen 3]
    h.entries = ["show", "ping"] ∧ h.maxLen = 3 := by
  decide +kernel

end History

end Console
