import Console.Proofs.Files
import Console.Proofs.History.Proper
import Console.Proofs.Text.Utf8

/-!
# Histories in files

A file holds the entries of a history line by line, and is read as if its lines were entered again.
As no entry is blank or the entry before, and none has a line feed in it, all of them come back, or
the newest of them under a lower bound.

* `History.OneLined`, `Reached.oneLined`: histories whose entries are lines;
* `lines_toText`, **`ofText_toText`**: the text of a history, and its history;
* `read_of_save`, `load_of_read`: the file that is written, and the file that is read;
* **`load_of_save`**: a history that was saved is there again.
-/

namespace Console

open Text

namespace History

/-- No entry has a line feed in it. -/
def OneLined (h : History) : Prop := ∀ e ∈ h.entries, '\n' ∉ e.toList

variable {h : History} {e line text path : String} {lines : List String} {m : ℕ} {fs fs' : Files}

/-! ## Entries that are lines -/

theorem mem_entries_add (he : e ∈ (h.add line).entries) : e ∈ h.entries ∨ e = trim line := by
  unfold add at he
  dsimp only at he
  split_ifs at he
  · exact .inl he
  · rcases List.mem_append.mp he with he | he
    · exact .inl (List.mem_of_mem_tail he)
    · exact .inr (List.mem_singleton.mp he)
  · rcases List.mem_append.mp he with he | he
    · exact .inl he
    · exact .inr (List.mem_singleton.mp he)

theorem OneLined.add (hh : h.OneLined) (hline : '\n' ∉ line.toList) : (h.add line).OneLined := by
  intro e he
  rcases mem_entries_add he with he | rfl
  · exact hh e he
  · exact mt mem_of_mem_trim hline

theorem OneLined.addAll (hh : h.OneLined) (hlines : ∀ line ∈ lines, '\n' ∉ line.toList) :
    (h.addAll lines).OneLined := by
  induction lines generalizing h with
  | nil => exact hh
  | cons line lines ih =>
    obtain ⟨hline, hlines⟩ := List.forall_mem_cons.mp hlines
    rw [addAll_cons]
    exact ih (hh.add hline) hlines

theorem OneLined.setMaxLen (hh : h.OneLined) (m : ℕ) : (h.setMaxLen m).OneLined :=
  fun e he => hh e (List.mem_of_mem_drop he)

theorem oneLined_empty (m : ℕ) : (empty m).OneLined := nofun

theorem oneLined_ofText (m : ℕ) (text : String) : (ofText m text).OneLined := by
  rw [ofText_eq_addAll]
  refine (oneLined_empty m).addAll (List.forall_mem_map.mpr fun l hl => ?_)
  rw [String.toList_ofList]
  exact not_mem_of_mem_lines _ l hl

theorem Reached.oneLined (hh : Reached (fun line => '\n' ∉ line.toList) h) : h.OneLined := by
  induction hh with
  | empty m => exact oneLined_empty m
  | load hload =>
    obtain ⟨text, rfl⟩ := exists_of_load hload
    exact oneLined_ofText _ text
  | add _ hline ih => exact ih.add hline
  | setMaxLen _ m ih => exact ih.setMaxLen m

/-! ## Texts -/

theorem lines_toText (hh : h.OneLined) :
    Text.lines h.toText.toList = h.entries.map String.toList ++ [[]] := by
  unfold OneLined at hh
  rw [toText]
  generalize h.entries = es at hh
  induction es with
  | nil => rfl
  | cons e es ih =>
    obtain ⟨he, hes⟩ := List.forall_mem_cons.mp hh
    have htext : (String.join ((e :: es).map (· ++ "\n"))).toList =
        e.toList ++ '\n' :: (String.join (es.map (· ++ "\n"))).toList := by
      rw [List.map_cons, String.join_cons, String.toList_append, String.toList_append,
        List.append_assoc]
      rfl
    rw [htext, lines_append he, ih hes, List.map_cons, List.cons_append]

/-- **The history of the text of a history** has its newest entries. -/
theorem ofText_toText (hproper : h.Proper) (hlined : h.OneLined) (m : ℕ) :
    ofText m h.toText = ⟨h.entries.rtake m, m⟩ := by
  have hlines : (Text.lines h.toText.toList).map String.ofList = h.entries ++ [""] := by
    rw [lines_toText hlined, List.map_append, List.map_map]
    exact congrArg (· ++ [""]) ((List.map_congr_left fun e _ => String.ofList_toList).trans
      (List.map_id _))
  have hcommands : commands (h.entries ++ [""]) = h.entries := by
    rw [commands_concat, if_pos (.inl rfl), hproper.commands_eq]
  rw [ofText_eq_addAll, hlines, addAll_empty, hcommands]

/-! ## Files -/

theorem load_of_read (hread : fs.read path = .bytes (Utf8.encode text)) (m : ℕ) :
    load fs path m = .ok (ofText m text) := by
  rw [load, hread]
  dsimp only
  rw [Utf8.decode_encode]

theorem read_of_save (hsave : h.save fs path = (.ok (), fs')) :
    fs'.read path = .bytes (Utf8.encode h.toText) := by
  rcases hmade : fs.makeDirectories path with ⟨made, fs₁⟩
  rw [save, hmade] at hsave
  dsimp only at hsave
  cases hwritten : if made then fs₁.write path (Utf8.encode h.toText) else none with
  | none =>
    rw [hwritten] at hsave
    cases hsave
  | some written =>
    rw [hwritten] at hsave
    cases hsave
    split_ifs at hwritten
    exact Files.read_of_write hwritten

theorem load_of_save_of_proper (hproper : h.Proper) (hlined : h.OneLined)
    (hsave : h.save fs path = (.ok (), fs')) (m : ℕ) :
    load fs' path m = .ok ⟨h.entries.rtake m, m⟩ := by
  rw [load_of_read (read_of_save hsave), ofText_toText hproper hlined]

theorem Proper.rtake_eq (hh : h.Proper) (hm : h.maxLen = m) :
    (⟨h.entries.rtake m, m⟩ : History) = h :=
  History.ext (rtake_of_length_le (hm ▸ hh.size_le)) hm.symm

/-- **A history survives its file.** One that came about by lines without line feeds and by changes
of the bound is read with its newest entries, up to the bound for which it is read, and with all of
them under its own bound. A history from a file is the same after it was saved and read once more. -/
theorem load_of_save :
    (∀ h, Reached (fun line => '\n' ∉ line.toList) h → ∀ fs fs' path,
      h.save fs path = (.ok (), fs') →
        (∀ m, load fs' path m = .ok ⟨h.entries.rtake m, m⟩) ∧ load fs' path h.maxLen = .ok h) ∧
      ∀ fs path text, Files.read fs path = .bytes (Utf8.encode text) → ∀ m, ∃ h,
        load fs path m = .ok h ∧ ∀ fs₁ fs₂ path', h.save fs₁ path' = (.ok (), fs₂) →
          load fs₂ path' m = .ok h := by
  constructor
  · intro h hh fs fs' path hsave
    have hload := load_of_save_of_proper hh.proper hh.oneLined hsave
    refine ⟨hload, ?_⟩
    rw [hload, hh.proper.rtake_eq rfl]
  · intro fs path text hread m
    refine ⟨ofText m text, load_of_read hread m, fun fs₁ fs₂ path' hsave => ?_⟩
    have hmaxLen : (ofText m text).maxLen = m := by rw [ofText_eq_addAll, addAll_empty]
    have hproper := proper_ofText m text
    rw [load_of_save_of_proper hproper (oneLined_ofText m text) hsave, hproper.rtake_eq hmaxLen]

/-- A history whose bound was changed, with a carriage return in an entry, in a directory that has
to be made; and a file with carriage returns, a blank line and a repetition, but no line feed at its
end. -/
theorem load_of_save_nested :
    let h := (((empty 0).setMaxLen 3).add "show").add " exit\rnow\r"
    let text := "show\r\n \nshow\n\tping\r\r1"
    let fs : Files := ⟨.directory [("old", .file (Utf8.encode text))], []⟩
    let path := "nested/new"
    Reached (fun line => '\n' ∉ line.toList) h ∧ (h.save fs path).1 = .ok () ∧
      h.entries = ["show", "exit\rnow"] ∧ load (h.save fs path).2 path 3 = .ok h ∧
      load (h.save fs path).2 path 1 = .ok ⟨["exit\rnow"], 1⟩ ∧
      fs.read "old" = .bytes (Utf8.encode text) ∧ ∃ k : History, load fs "old" 2 = .ok k ∧
        k.entries = ["show", "ping\r\r1"] ∧ (k.save fs path).1 = .ok () ∧
        load (k.save fs path).2 path 2 = .ok k := by
  intro h text fs path
  have hreached : Reached (fun line => '\n' ∉ line.toList) h :=
    .add (.add (.setMaxLen (.empty 0) 3) (by decide +kernel)) (by decide +kernel)
  have hsave : (h.save fs path).1 = .ok () := by decide +kernel
  have hpair (p : Except Error Unit × Files) (hp : p.1 = .ok ()) : p = (.ok (), p.2) :=
    Prod.ext hp rfl
  have hread : fs.read "old" = .bytes (Utf8.encode text) := by decide +kernel
  obtain ⟨hload, hown⟩ := load_of_save.1 h hreached fs _ path (hpair _ hsave)
  obtain ⟨k, hk, hagain⟩ := load_of_save.2 fs "old" text hread 2
  have hentries : k = ⟨["show", "ping\r\r1"], 2⟩ := by
    rw [load_of_read hread] at hk
    cases hk
    decide +kernel
  have hksave : (k.save fs path).1 = .ok () := by
    rw [hentries]
    decide +kernel
  have hone := hload 1
  rw [show h.maxLen = 3 by decide +kernel] at hown
  rw [show h.entries = ["show", "exit\rnow"] by decide +kernel] at hone
  exact ⟨hreached, hsave, by decide +kernel, hown, hone, hread, k, hk, by rw [hentries], hksave,
    hagain fs _ path (hpair _ hksave)⟩

end History

end Console
