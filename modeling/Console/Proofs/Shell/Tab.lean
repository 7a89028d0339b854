import Console.Proofs.Shell.Agreement
import Console.Proofs.Shell.Visible
import Console.Proofs.Spec.RoundTrip
import Console.Proofs.Text.Place
import Console.Proofs.Tree.Keyed
import Console.Shell.Assistant

/-!
# The tab key adds to the line

The editor takes for the word being typed what stands behind the last blank, and the shell takes the
last fragment of the line. Without quotes and backslashes these are one and the same, unless the line
ends in a comment: there the shell completes the fragment before the comment, and the editor puts
what it offers in the place of the last word of the comment.

* `Shell.isKeyword_of_mem_complete`, `Shell.begins_of_mem_complete`: what is offered is a keyword that
  begins with the fragment being typed;
* **`exists_parse_of_plain`**: the last word of a line is its last fragment;
* **`Shell.prefix_press_tab`**: when the tab key only adds to the line.
-/

namespace Console

open Text Words

variable {σ : Type}

theorem Command.Reaches.isKeyword {c : Command σ} {p : List String} (h : c.Reaches p) :
    ∀ k ∈ p, IsKeyword k := by
  obtain ⟨q, ⟨es, ⟨tokens, hc, hdenotes⟩, rfl⟩, hpq⟩ := h
  intro k hk
  obtain ⟨e, he, rfl⟩ := List.mem_map.mp (hpq.subset hk)
  exact hdenotes.isKeyword (wellFormed_of_compile hc).2 e he

theorem LineState.press_tab (l : LineState) (h : History) (a : Assistant) (control : Bool) :
    l.press h a ⟨.tab, control⟩ = l.complete a := by
  cases control <;> rfl

namespace Shell

theorem complete_assistant (s : Shell σ) : s.assistant.complete = s.complete := by
  rw [assistant]

variable {prompt : String} {sets : List (CommandSet σ)} {s : Shell σ} {line word k : String}

theorem isKeyword_of_mem_complete (hs : Shell.LoadedWith prompt sets s)
    (hk : k ∈ s.complete line word) : IsKeyword k := by
  obtain ⟨fs, e, n, -, he, hn, hvisible, rfl⟩ := mem_complete hk
  have hroot : Element.root.isRecursive = false := by decide +kernel
  obtain ⟨hne, hlookup⟩ := CommandTree.lookup_path_of_mem_expand hs.gains.sound
    (hs.gains.element ▸ hroot) he hn
  obtain ⟨c, -, -, hreaches⟩ := (hs.gains.disclosedBy he hn hvisible).visible
  -- The path to a node ends in its keyword.
  obtain ⟨p, j, hpath⟩ := (List.eq_nil_or_concat' e.path).resolve_left hne
  rw [hpath] at hlookup hreaches
  rw [CommandTree.keyword_of_lookup hs.gains.sound hlookup]
  exact hreaches.isKeyword j (List.mem_append_right p (List.mem_singleton_self j))

theorem begins_of_mem_complete (hs : Shell.LoadedWith prompt sets s) {fs : List String}
    (hparse : parse line = some fs) (hk : k ∈ s.complete line word) :
    ∃ gs f, Awaits word fs gs f ∧ f.toList <+: k.toList := by
  obtain ⟨gs, f, hawaits⟩ : ∃ gs f, Awaits word fs gs f := by
    by_contra hnone
    rw [complete_nil_of_not_awaits hparse fun gs f h => hnone ⟨gs, f, h⟩] at hk
    cases hk
  obtain ⟨e, he⟩ : ∃ e, s.root.Resolves gs e := by
    by_contra hnone
    rw [complete_eq_nil_of_awaits hparse hawaits fun e he => hnone ⟨e, he⟩] at hk
    cases hk
  obtain ⟨n, hn, rfl, hword, hhidden⟩ := (mem_complete_iff hparse hawaits).mp hk
  obtain ⟨step, hstep, rfl⟩ := (hawaits.exists_expand_iff he).mp hn
  have hoffers : (e.reached s.root).Offers f step.node.keyword :=
    ⟨step, hstep, rfl, hword, hhidden⟩
  exact ⟨gs, f, hawaits, hoffers.begins (he.walks.sound_reached hs.gains.sound)⟩

theorem trim_ne_empty (h : wantsNext line = false) : trim line ≠ "" := by
  obtain ⟨hempty, hends⟩ := Bool.or_eq_false_iff.mp h
  intro htrim
  rw [trim_eq_empty] at htrim
  cases hlast : line.toList.getLast? with
  | none =>
    rw [List.getLast?_eq_none_iff, String.toList_eq_nil_iff] at hlast
    rw [hlast] at hempty
    cases hempty
  | some c =>
    have hnot := endsBlank_eq_false.mp hends c hlast
    rw [htrim c (List.mem_of_getLast? hlast)] at hnot
    cases hnot

theorem toList_eq_of_wantsNext (h : wantsNext line = false) :
    line.toList = line.toList.takeWhile isBlank ++ (trim line).toList := by
  have hends : ¬ endsBlank line = true := Bool.eq_false_iff.mp (Bool.or_eq_false_iff.mp h).2
  have htail : (trimStart line.toList).rtakeWhile isBlank = [] :=
    not_ne_iff.mp (mt (endsBlank_iff_of_trim (trim_ne_empty h)).mpr hends)
  have hline := toList_eq_trim line
  rwa [htail, List.append_nil] at hline

/-- **The last word of a line is its last fragment,** if the line has no quotes and no backslashes and
does not end in a comment. Only a fragment with blanks in it is longer than the last word. -/
theorem exists_parse_of_plain (hplain : Plain line.toList)
    (hcomment : ¬ EndsInComment (trim line).toList) (hword : wantsNext line = false) :
    ∃ fs f, parse line = some (fs ++ [f]) ∧
      ((∀ c ∈ f.toList, isBlank c = false) → currentWord line = f) := by
  have hline := toList_eq_of_wantsNext hword
  have hcore : Plain (trim line).toList := fun c hc => hplain c (by
    rw [hline]
    exact List.mem_append_right _ hc)
  have hplace := after_plain hcore
  have hne : (trim line).toList ≠ [] := mt String.toList_eq_nil_iff.mp (trim_ne_empty hword)
  have hend : ∀ c ∈ (trim line).toList.getLast?, isBlank c = false := isBlank_of_getLast?_trim
  have hread : parse line = ((Place.between.after (trim line).toList).read []).map
      (Place.between.endedBy (trim line).toList ++ ·) := by
    rw [parse, Words.split, ← between_append, List.append_nil]
  generalize Place.between.after (trim line).toList = p at hplace hread
  generalize (trim line).toList = core at hline hplace hread hcomment hne hend
  cases hplace with
  | between separates =>
    have hlast := List.getLast?_eq_some_getLast hne
    have hnot := hend _ hlast
    rw [isBlank_of_isSeparator (separates _ hlast)] at hnot
    cases hnot
  | @inWord u w ne inside begins =>
    rw [Place.read, inWord, emit, Option.map_some, Option.map_some] at hread
    refine ⟨_, String.ofList w, hread, fun hw => ?_⟩
    rw [String.toList_ofList] at hw
    rw [← List.append_assoc] at hline
    rw [← String.toList_inj, String.toList_ofList]
    refine currentWord_of_append hline hw fun c hc => ?_
    by_cases hnil : u = []
    · rw [hnil, List.append_nil] at hc
      exact List.mem_takeWhile_imp (List.mem_of_getLast? hc)
    · rw [List.getLast?_append_of_ne_nil _ hnil] at hc
      exact isBlank_of_isSeparator (begins c hc)
  | inComment comment => exact absurd comment hcomment

theorem Awaits.eq_last {fs gs : List String} {f g : String} (h : Awaits word (fs ++ [f]) gs g)
    (typed : ¬ ∀ c ∈ word.toList, isBlank c = true) : g = f := by
  generalize hfs : fs ++ [f] = fs' at h
  cases h with
  | next blank => exact absurd blank typed
  | last _ gs g => exact (List.singleton_inj.mp (List.append_inj' hfs rfl).2).symm

/-- **When the tab key only adds to the line.** For a line without quotes and backslashes, in front of
a loaded shell, it leaves the line as it is or makes it longer whenever the line does not end in a
comment. In general it does so if and only if the last word of the line begins all that the shell
offers, or there are several offers that agree on no more bytes than this word has. -/
theorem prefix_press_tab (hs : Shell.LoadedWith prompt sets s) (h : History) (l : LineState)
    (hplain : Plain l.buffer.toList) (control : Bool) :
    let word := currentWord l.buffer
    let offered := s.complete l.buffer word
    let after := (l.press h s.assistant ⟨.tab, control⟩).2
    (¬ EndsInComment (trim l.buffer).toList → l.buffer.toList <+: after.buffer.toList) ∧
      (l.buffer.toList <+: after.buffer.toList ↔
        (∀ k ∈ offered, word.toList <+: k.toList) ∨
          2 ≤ offered.length ∧ (commonPrefix offered).utf8ByteSize ≤ word.utf8ByteSize) := by
  intro word offered after
  have hafter : l.buffer.toList <+: after.buffer.toList ↔
      (∀ k ∈ offered, word.toList <+: k.toList) ∨
        2 ≤ offered.length ∧ (commonPrefix offered).utf8ByteSize ≤ word.utf8ByteSize := by
    have hcomplete := l.prefix_complete_iff s.assistant
    rw [complete_assistant] at hcomplete
    rw [show after = (l.complete s.assistant).2 by rw [← l.press_tab h s.assistant control]]
    exact hcomplete
  refine ⟨fun hcomment => hafter.mpr (.inl fun k hk => ?_), hafter⟩
  cases hnext : wantsNext l.buffer with
  | true =>
    rw [show word = "" from currentWord_eq_empty.mpr hnext]
    exact List.nil_prefix
  | false =>
    obtain ⟨fs, f, hparse, hword⟩ := exists_parse_of_plain hplain hcomment hnext
    obtain ⟨gs, g, hawaits, hbegins⟩ := begins_of_mem_complete hs hparse hk
    obtain rfl : g = f := hawaits.eq_last (by
      rw [forall_isBlank_currentWord, hnext]
      exact Bool.false_ne_true)
    -- Keywords have no blanks, and so has what begins one.
    have hkeyword := isKeyword_of_mem_complete hs hk
    rw [show word = g from hword fun c hc => (hkeyword.1 c (hbegins.subset hc)).1]
    exact hbegins

/-- A command with two words. -/
def showVersion : CommandSet Unit := .ofList [.idle "show version" false 0]

/-- The shell with this command. -/
def ofShowVersion : Shell Unit := ((Shell.empty ">").load showVersion ()).shell

/-- The last word `i` becomes `ip`, as far as both words agree that it may stand for. -/
theorem prefix_press_tab_show :
    let line : LineState := ⟨"\u3000sh i", 0, ""⟩
    Shell.LoadedWith ">" [showAndHide] ofShowAndHide ∧ Plain line.buffer.toList ∧
      ¬ EndsInComment (trim line.buffer).toList ∧
      (line.press .empty ofShowAndHide.assistant ⟨.tab, false⟩).2.buffer = "\u3000sh ip" ∧
      "\u3000sh i".toList <+: "\u3000sh ip".toList := by
  intro line
  have hs : Shell.LoadedWith ">" [showAndHide] ofShowAndHide :=
    .load _ () .empty (by decide +kernel)
  have hplain : Plain line.buffer.toList := by decide +kernel
  have hcomment : ¬ EndsInComment (trim line.buffer).toList := by
    rintro ⟨u, v, hline, -⟩
    have hmem : '#' ∈ (trim line.buffer).toList := by simp [hline]
    exact absurd hmem (by decide +kernel)
  have hpress : (line.press .empty ofShowAndHide.assistant ⟨.tab, false⟩).2.buffer =
      "\u3000sh ip" := by decide +kernel
  have hprefix := (prefix_press_tab hs .empty line hplain false).1 hcomment
  rw [hpress] at hprefix
  exact ⟨hs, hplain, hcomment, hpress, hprefix⟩

/-- The shell completes the fragment before a comment, and the editor overwrites the comment. -/
theorem not_prefix_press_tab_comment :
    let line : LineState := ⟨"show #x", 0, ""⟩
    Shell.LoadedWith ">" [showVersion] ofShowVersion ∧ Plain line.buffer.toList ∧
      (line.press .empty ofShowVersion.assistant ⟨.tab, false⟩).2.buffer = "show show " ∧
      ¬ "show #x".toList <+: "show show ".toList := by
  intro line
  exact ⟨.load _ () .empty (by decide +kernel), by decide +kernel, by decide +kernel,
    by decide +kernel⟩

end Shell

end Console
