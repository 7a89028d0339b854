import Console.Proofs.Shell.Described
import Console.Proofs.Shell.Lookup
import Console.Proofs.Tree.Trail

/-!
# What help and completion name

A node is hidden when every command that reaches it is. Help and completion leave hidden nodes out
of what they list, so that a name they give away belongs to a visible command.

* `Expansion.DisclosedBy`: a reading that ends on the way along a path of a visible command;
* `CommandTree.Gains.exists_command`: the handler at the end of a reading is that of a command;
* `CommandTree.Gains.disclosedBy`: so ends every reading whose last node is not hidden;
* `Shell.mem_entries_help`, `Shell.mem_complete`: what help and completion are made of;
* **`Shell.named_by_visible`**: what they name.
-/

namespace Console

open Text

variable {σ : Type}

/-- The lines of help in a listing. Other help has none. -/
def Help.entries : Help → List HelpEntry
  | unrecognized => []
  | ambiguous => []
  | listing entries _ => entries

/-- The reading `e` of the tree `t` ends at the node `n`, and the keywords that lead there begin a
path of a visible one of the commands `cs`. -/
structure Expansion.DisclosedBy (cs : List (Command σ)) (t : CommandTree (Handler σ))
    (e : Expansion (Handler σ)) (n : CommandTree (Handler σ)) : Prop where
  last : e.last? = some n
  lookup : t.lookup e.path = some n
  visible : ∃ c ∈ cs, c.hidden = false ∧ c.Reaches e.path

theorem Expansion.isVisible_iff {e : Expansion (Handler σ)} :
    e.isVisible = true ↔ ∃ n, e.last? = some n ∧ n.hidden = false := by
  unfold isVisible
  cases e.last? with
  | none => simp
  | some n => simp

namespace CommandTree

theorem Reflects.hidden_eq_false_iff {t n : CommandTree (Handler σ)} {cs : List (Command σ)}
    {p : List String} (h : t.Reflects cs p) (hn : t.lookup p = some n) :
    n.hidden = false ↔ ∃ c ∈ cs, c.hidden = false ∧ c.Reaches p := by
  rw [← Bool.not_eq_true, h.hidden_iff n hn]
  push Not
  refine exists_congr fun c => and_congr_right fun _ => ?_
  rw [and_comm, ne_eq, Bool.not_eq_true]

theorem Gains.reflects_path {t n : CommandTree (Handler σ)} {cs : List (Command σ)}
    (h : Gains .root cs t) {e : Expansion (Handler σ)} {fs : List String} {lookahead : Bool}
    (he : e ∈ expand t fs lookahead) (hn : e.last? = some n) :
    t.Reflects cs e.path ∧ t.lookup e.path = some n := by
  have hroot : Element.root.isRecursive = false := by decide +kernel
  obtain ⟨hne, hlookup⟩ := lookup_path_of_mem_expand h.sound (h.element ▸ hroot) he hn
  exact ⟨h.reflects hne, hlookup⟩

theorem Gains.exists_command {t : CommandTree (Handler σ)} {cs : List (Command σ)}
    (h : Gains .root cs t) {e : Expansion (Handler σ)} {fs : List String} {lookahead : Bool}
    (he : e ∈ expand t fs lookahead) {handler : Handler σ}
    (hend : e.last?.bind CommandTree.handler = some handler) :
    ∃ c ∈ cs, c.Denotes e.path ∧ c.handler = handler := by
  obtain ⟨n, hn, hhandler⟩ := Option.bind_eq_some_iff.mp hend
  obtain ⟨hreflects, hlookup⟩ := h.reflects_path he hn
  obtain ⟨before, c, after, rfl, hdenotes, hc, -⟩ :=
    (hreflects.handler_eq_some n hlookup handler).mp hhandler
  exact ⟨c, List.mem_append_right before List.mem_cons_self, hdenotes, hc⟩

/-- **A reading that ends at a node that is not hidden is on the way along a visible command.** -/
theorem Gains.disclosedBy {t n : CommandTree (Handler σ)} {cs : List (Command σ)}
    (h : Gains .root cs t) {e : Expansion (Handler σ)} {fs : List String} {lookahead : Bool}
    (he : e ∈ expand t fs lookahead) (hn : e.last? = some n) (hvisible : n.hidden = false) :
    e.DisclosedBy cs t n := by
  obtain ⟨hreflects, hlookup⟩ := h.reflects_path he hn
  exact ⟨hn, hlookup, (hreflects.hidden_eq_false_iff hlookup).mp hvisible⟩

end CommandTree

namespace Shell

theorem mem_entries_help {s : Shell σ} {line : String} {entry : HelpEntry}
    (h : entry ∈ (s.help line).entries) : ∃ fs e n, parse line = some fs ∧
      e ∈ expand s.root fs (wantsNext line) ∧ e.last? = some n ∧ n.hidden = false ∧
      e.entry = some entry := by
  unfold help at h
  split at h
  · cases h
  · rename_i fs hfs
    dsimp only at h
    split at h
    · cases h
    · split at h
      · cases h
      · obtain ⟨e, he, hentry⟩ := List.mem_filterMap.mp h
        obtain ⟨hmem, hvisible⟩ := List.mem_filter.mp (List.mem_filter.mp he).1
        obtain ⟨n, hn, hhidden⟩ := Expansion.isVisible_iff.mp hvisible
        exact ⟨fs, e, n, hfs, List.mem_mergeSort.mp hmem, hn, hhidden, hentry⟩

theorem mem_complete {s : Shell σ} {line word k : String} (h : k ∈ s.complete line word) :
    ∃ fs e n, parse line = some fs ∧ e ∈ expand s.root fs (trim word).isEmpty ∧
      e.last? = some n ∧ n.hidden = false ∧ n.keyword = k := by
  unfold complete at h
  split at h
  · cases h
  · rename_i fs hfs
    dsimp only at h
    generalize (trim word).isEmpty = next at h ⊢
    split at h
    · cases h
    · rename_i hsome
      obtain ⟨n, hn, rfl⟩ := List.mem_map.mp (mem_ascending.mp h)
      obtain ⟨hnode, hfit⟩ := List.mem_filter.mp hn
      obtain ⟨e, he, hplace⟩ := List.mem_filterMap.mp hnode
      obtain ⟨-, hlength⟩ := CommandTree.leads_of_mem_expand he
      -- The word stands for the last step: no reading goes beyond its place.
      refine ⟨fs, e, n, hfs, he, Expansion.last?_eq_of_getElem? hplace (hlength.trans ?_), ?_, rfl⟩
      · cases next with
        | true => exact Nat.le_refl _
        | false =>
          have hpos : 0 < fs.length := List.length_pos_iff.mpr (by simpa using hsome)
          exact Nat.le_of_eq (Nat.sub_add_cancel hpos).symm
      · simpa using (Bool.and_eq_true_iff.mp hfit).2

/-- **What help and completion name.** In a loaded shell, the help that is written for a line is a
report or made of entries, each that of a reading of the line, and every completion is the keyword at
the end of a reading. The path to the end of such a reading begins a path of some loaded command that
is visible. -/
theorem named_by_visible {prompt : String} {sets : List (CommandSet σ)} {s : Shell σ}
    (hs : Shell.LoadedWith prompt sets s) (line word : String) :
    (∀ sink, (s.describe line sink).mapError Sink.Refusal.cause = sink.write (match s.help line with
      | .unrecognized => line ++ "\n" ++ "% Unrecognized command\n\n"
      | .ambiguous => "% Ambiguous command: \"" ++ line ++ "\"\n\n"
      | .listing entries complete =>
        String.join (entries.map fun e => "  " ++ e.shown ++ "\t" ++ e.description ++ "\n") ++
          (if complete then "  <cr>\n" else "") ++ "\n")) ∧
      (∀ entry ∈ (s.help line).entries, ∃ fs e n, parse line = some fs ∧
        e ∈ expand s.root fs (wantsNext line) ∧ e.entry = some entry ∧
        e.DisclosedBy (sets.flatMap CommandSet.brings) s.root n) ∧
      ∀ k ∈ s.complete line word, ∃ fs e n, parse line = some fs ∧
        e ∈ expand s.root fs (trim word).isEmpty ∧ n.keyword = k ∧
        e.DisclosedBy (sets.flatMap CommandSet.brings) s.root n := by
  refine ⟨fun sink => ?_, fun entry hentry => ?_, fun k hk => ?_⟩
  · refine (s.mapError_describe line sink).trans ?_
    cases s.help line <;> rfl
  · obtain ⟨fs, e, n, hfs, he, hn, hvisible, hentry⟩ := mem_entries_help hentry
    exact ⟨fs, e, n, hfs, he, hentry, hs.gains.disclosedBy he hn hvisible⟩
  · obtain ⟨fs, e, n, hfs, he, hn, hvisible, hk⟩ := mem_complete hk
    exact ⟨fs, e, n, hfs, he, hk, hs.gains.disclosedBy he hn hvisible⟩

/-- Two sets in which hidden commands share paths with visible ones. -/
def mixedSets : List (CommandSet Unit) :=
  [.ofList [.idle "show \x7bip|version\x7d" true 0, .idle "run .WORD" true 1],
    .ofList [.idle "show ip route" false 2, .idle "run .WORD end" false 3]]

/-- The shell with both sets. -/
def ofMixed : Shell Unit :=
  mixedSets.foldl (fun s set => (s.load set ()).shell) (.empty ">")

theorem named_by_visible_mixed :
    Shell.LoadedWith ">" mixedSets ofMixed ∧ ofMixed.complete "show " "" = ["ip"] ∧
      ∃ fs e n, parse "show " = some fs ∧ e ∈ expand ofMixed.root fs true ∧ n.keyword = "ip" ∧
        e.DisclosedBy (mixedSets.flatMap CommandSet.brings) ofMixed.root n := by
  have hs : Shell.LoadedWith ">" mixedSets ofMixed :=
    .load _ () (.load _ () .empty (by decide +kernel)) (by decide +kernel)
  have hip : ofMixed.complete "show " "" = ["ip"] := by decide +kernel
  have hblank : (trim "").isEmpty = true := by decide +kernel
  obtain ⟨-, -, hnamed⟩ := named_by_visible hs "show " ""
  refine ⟨hs, hip, ?_⟩
  have hmem : "ip" ∈ ofMixed.complete "show " "" := by
    rw [hip]
    exact List.mem_singleton_self _
  have hknown := hnamed "ip" hmem
  rw [hblank] at hknown
  exact hknown

/-- A hidden word is not completed, although a line with it is accepted. -/
example : ofMixed.complete "show v" "v" = [] ∧ ofMixed.complete "r" "r" = ["run"] := by
  decide +kernel

end Shell

end Console
