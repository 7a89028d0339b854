import Console.Proofs.LineEditor
import Console.Proofs.Shell.Completion
import Console.Proofs.Shell.Listing

/-!
# Completion agrees with help

Completion and help read a line each in its own way: help asks whether the line ends in a blank, and
completion whether its last word is blank. Both look at the same fragments, so that completion
offers the words that help lists, without those for typed places, unless a fragment before the last
word is ambiguous: then help tells of that fragment, and completion offers nothing.

* `forall_isBlank_currentWord`: the last word of a line is blank where the next word has not begun;
* `Shell.settled`: the fragments before the word that is being typed;
* **`mem_listed_iff`**: what help lists behind fragments that have one reading;
* **`Shell.complete_eq_listed`**: completion offers what help lists.
-/

namespace Console

universe u

open Text

variable {σ : Type}

/-! ## The word being typed -/

theorem currentWord_eq_empty {line : String} :
    currentWord line = "" ↔ Shell.wantsNext line = true := by
  have hempty : currentWord line = "" ↔
      (line.toList.reverse.takeWhile fun c => !isBlank c) = [] := by
    rw [currentWord, ← String.toList_inj, String.toList_ofList]
    exact List.reverse_eq_nil_iff
  have hline : line.isEmpty = true ↔ line.toList.reverse = [] := by
    rw [String.isEmpty_iff, ← String.toList_inj]
    exact List.reverse_eq_nil_iff.symm
  rw [hempty, Shell.wantsNext, Bool.or_eq_true, hline, endsBlank, ← List.head?_reverse]
  cases line.toList.reverse with
  | nil => simp
  | cons c cs => cases h : isBlank c <;> simp [h]

/-- **The last word of a line is blank where the next word has not begun.** -/
theorem forall_isBlank_currentWord {line : String} :
    (∀ c ∈ (currentWord line).toList, isBlank c = true) ↔ Shell.wantsNext line = true := by
  rw [← currentWord_eq_empty, ← String.toList_inj]
  constructor
  · intro h
    refine List.eq_nil_iff_forall_not_mem.mpr fun c hc => ?_
    have hnot := isBlank_of_mem_currentWord c hc
    rw [h c hc] at hnot
    cases hnot
  · intro h c hc
    rw [h] at hc
    cases hc

theorem Step.From.value_eq {η : Type u} {t : CommandTree η} {f : String} {s : Step η}
    (h : s.From t f) (hword : s.node.element.converter = none) :
    s.value = .word s.node.keyword := by
  by_cases hbegins : f.toList <+: s.node.keyword.toList
  · exact h.keyword hbegins
  · obtain ⟨c, hc, -⟩ := h.converted hbegins
    rw [hword] at hc
    cases hc

namespace Shell

/-- Of the fragments of a line those before the word that is being typed: all of them if the next
word has not begun. -/
def settled (line : String) (fs : List String) : List String :=
  if wantsNext line then fs else fs.dropLast

theorem exists_awaits {line : String} {fs : List String} (h : wantsNext line = true ∨ fs ≠ []) :
    ∃ f, Awaits (currentWord line) fs (settled line fs) f := by
  unfold settled
  cases hnext : wantsNext line with
  | true =>
    rw [if_pos rfl]
    exact ⟨"", .next (forall_isBlank_currentWord.mpr hnext) fs⟩
  | false =>
    rw [if_neg Bool.false_ne_true]
    have htyped : ¬ ∀ c ∈ (currentWord line).toList, isBlank c = true := fun hblank => by
      rw [forall_isBlank_currentWord.mp hblank] at hnext
      cases hnext
    have hfs : fs ≠ [] := h.resolve_left (by rw [hnext]; exact Bool.false_ne_true)
    have hlast := Awaits.last htyped fs.dropLast (fs.getLast hfs)
    rw [List.dropLast_append_getLast] at hlast
    exact ⟨_, hlast⟩

/-- **What help lists** behind fragments that have one reading: the visible nodes that what has been
typed of the last word may lead to. -/
theorem mem_listed_iff {s : Shell σ} {line f : String} {fs gs : List String}
    (hparse : parse line = some fs) (h : Awaits (currentWord line) fs gs f)
    {e : Expansion (Handler σ)} (he : s.root.Resolves gs e) {st : Step (Handler σ)} :
    st ∈ s.listed line ↔ st ∈ (e.reached s.root).stepsFor f ∧ st.node.hidden = false := by
  rw [mem_listed, hparse]
  simp only [Option.some.injEq, exists_eq_left']
  cases h with
  | next blank =>
    rw [forall_isBlank_currentWord.mp blank, if_pos rfl, he.expand_lookahead]
    constructor
    · rintro ⟨-, d, hd, hlast, hhidden, hgoes⟩
      rcases List.mem_append.mp hd with hd | hd
      · obtain ⟨st', hst', rfl⟩ := List.mem_map.mp hd
        rw [e.getLast?_extend, Option.some.injEq] at hlast
        exact ⟨hlast ▸ hst', hhidden⟩
      · -- The walk itself is not listed: without a step it ends nowhere, else it is complete.
        split_ifs at hd with hhandler
        · rw [List.mem_singleton.mp hd] at hlast hgoes
          have hreached : e.reached s.root = st.node :=
            Expansion.reached_of_last? (Option.map_eq_some_iff.mpr ⟨st, hlast, rfl⟩) s.root
          rcases he with ⟨-, rfl⟩ | he
          · cases hlast
          · rw [hreached] at hhandler
            rw [he, List.head?_cons, Option.map_some,
              Expansion.completes_self hlast hhandler] at hgoes
            cases hgoes
        · cases hd
    · rintro ⟨hst, hhidden⟩
      have hexact : (expand s.root fs false).length < 2 ∧ (e.extend st).completes
          ((expand s.root fs false).head?.map Expansion.values) = false := by
        rcases he with ⟨rfl, rfl⟩ | he
        · exact ⟨Nat.zero_lt_two, Expansion.completes_none _⟩
        · rw [he]
          exact ⟨Nat.one_lt_two, e.completes_extend st⟩
      exact ⟨hexact.1, e.extend st, List.mem_append_left _ (List.mem_map_of_mem hst),
        e.getLast?_extend st, hhidden, hexact.2⟩
  | last typed =>
    have hnext : wantsNext line = false := by
      rw [← Bool.not_eq_true, ← forall_isBlank_currentWord]
      exact typed
    rw [hnext, if_neg Bool.false_ne_true, CommandTree.expand_of_last he.walks fun _ => rfl]
    constructor
    · rintro ⟨-, d, hd, hlast, hhidden, -⟩
      obtain ⟨st', hst', rfl⟩ := List.mem_map.mp hd
      have hst : st' = st := Option.some.inj ((Expansion.getLast?_extend _ _).symm.trans hlast)
      exact ⟨hst ▸ hst', hhidden⟩
    · rintro ⟨hst, hhidden⟩
      exact ⟨Nat.zero_lt_two, _, List.mem_map_of_mem hst, Expansion.getLast?_extend _ st, hhidden,
        Expansion.completes_none _⟩

theorem mem_complete_iff_exists_listed {s : Shell σ} (hs : s.root.Sound) {line f : String}
    {fs gs : List String} (hparse : parse line = some fs)
    (h : Awaits (currentWord line) fs gs f) {e : Expansion (Handler σ)}
    (he : s.root.Resolves gs e) {k : String} :
    k ∈ s.complete line (currentWord line) ↔
      ∃ st ∈ s.listed line, st.node.element.converter = none ∧ st.value.text = k := by
  have htext {st : Step (Handler σ)} (hst : st ∈ (e.reached s.root).stepsFor f)
      (hword : st.node.element.converter = none) : st.value.text = st.node.keyword := by
    have hfrom := CommandTree.from_of_mem_stepsFor (he.walks.sound_reached hs) hst
    rw [hfrom.value_eq hword]
    rfl
  rw [mem_complete_iff hparse h]
  simp only [h.exists_expand_iff he, mem_listed_iff hparse h he]
  constructor
  · rintro ⟨n, ⟨st, hst, rfl⟩, rfl, hword, hhidden⟩
    exact ⟨st, ⟨hst, hhidden⟩, hword, htext hst hword⟩
  · rintro ⟨st, ⟨hst, hhidden⟩, hword, rfl⟩
    exact ⟨st.node, ⟨st, hst, rfl⟩, (htext hst hword).symm, hword, hhidden⟩

/-! ## Lines without a reading -/

theorem listed_eq_nil {s : Shell σ} {line : String} (h : s.help line = .unrecognized) :
    s.listed line = [] := by
  refine List.eq_nil_iff_forall_not_mem.mpr fun st hst => ?_
  obtain ⟨fs, hparse, -, e, he, -⟩ := mem_listed.mp hst
  rw [help_eq_unrecognized_iff.mp h fs hparse] at he
  cases he

theorem complete_eq_nil {s : Shell σ} {line : String} (h : s.help line = .unrecognized) :
    s.complete line (currentWord line) = [] := by
  refine List.eq_nil_iff_forall_not_mem.mpr fun k hk => ?_
  obtain ⟨fs, e, n, hparse, he, -⟩ := mem_complete hk
  have hnext : (trim (currentWord line)).isEmpty = wantsNext line := by
    rw [Bool.eq_iff_iff, String.isEmpty_iff, trim_eq_empty, forall_isBlank_currentWord]
  rw [hnext, help_eq_unrecognized_iff.mp h fs hparse] at he
  cases he

theorem exists_resolves_settled {s : Shell σ} {line : String} {fs : List String}
    (hsome : expand s.root fs (wantsNext line) ≠ [])
    (hfew : ¬ s.root.Ambiguous (settled line fs)) :
    ∃ f e, Awaits (currentWord line) fs (settled line fs) f ∧
      s.root.Resolves (settled line fs) e := by
  have hplace : wantsNext line = true ∨ fs ≠ [] := by
    by_contra h
    obtain ⟨hnext, hfs⟩ := not_or.mp h
    rw [Bool.not_eq_true] at hnext
    rw [hnext, not_ne_iff.mp hfs] at hsome
    exact hsome rfl
  obtain ⟨f, hawaits⟩ := exists_awaits hplace
  rw [CommandTree.ambiguous_iff] at hfew
  by_cases hgs : settled line fs = []
  · exact ⟨f, .start, hawaits, .inl ⟨hgs, rfl⟩⟩
  · by_cases hone : (expand s.root (settled line fs) false).length = 1
    · obtain ⟨e, he⟩ := List.length_eq_one_iff.mp hone
      exact ⟨f, e, hawaits, .inr he⟩
    · -- Behind fragments without a reading nothing is read.
      have hnone : expand s.root (settled line fs) false = [] :=
        List.length_eq_zero_iff.mp (by omega)
      obtain ⟨rest, hrest⟩ : settled line fs <+: fs := by
        unfold settled
        split
        · exact List.prefix_rfl
        · exact List.dropLast_prefix fs
      have hread := CommandTree.expand_append_of_ne hgs hone rest (wantsNext line)
      rw [hrest, hnone] at hread
      exact absurd hread hsome

/-! ## Completion and help -/

/-- **Completion offers what help lists.** What help writes for a line has a line for each listed
step. If one of the fragments before the word being typed is ambiguous, completion offers nothing.
Otherwise it offers, in ascending order, just the words that are shown for listed nodes without a
converter. It offers nothing where help reports the line as unrecognized. -/
theorem complete_eq_listed {prompt : String} {sets : List (CommandSet σ)} {s : Shell σ}
    (hs : Shell.LoadedWith prompt sets s) (line : String) :
    let offered := s.complete line (currentWord line)
    (∀ sink, (s.describe line sink).mapError Sink.Refusal.cause = sink.write (match s.help line with
      | .unrecognized => line ++ "\n" ++ "% Unrecognized command\n\n"
      | .ambiguous => "% Ambiguous command: \"" ++ line ++ "\"\n\n"
      | .listing entries complete =>
        String.join (entries.map fun e => "  " ++ e.shown ++ "\t" ++ e.description ++ "\n") ++
          (if complete then "  <cr>\n" else "") ++ "\n")) ∧
      (s.help line).entries = (s.listed line).map Step.entry ∧
      (∀ fs, parse line = some fs → s.root.Ambiguous (settled line fs) → offered = []) ∧
      ((∀ fs, parse line = some fs → ¬ s.root.Ambiguous (settled line fs)) →
        offered.Pairwise (· < ·) ∧ ∀ k, k ∈ offered ↔
          ∃ st ∈ s.listed line, st.node.element.converter = none ∧ st.value.text = k) ∧
      (s.help line = .unrecognized → offered = []) := by
  intro offered
  refine ⟨fun sink => ?_, s.entries_help line, fun fs hparse hmany => ?_, fun hfew => ?_,
    complete_eq_nil⟩
  · refine (s.mapError_describe line sink).trans ?_
    cases s.help line <;> rfl
  · rw [CommandTree.ambiguous_iff] at hmany
    have hne : settled line fs ≠ [] := by
      intro hnil
      rw [hnil] at hmany
      exact Nat.not_succ_le_zero 1 hmany
    have hplace : wantsNext line = true ∨ fs ≠ [] := by
      refine .inr fun hnil => hne ?_
      rw [hnil, settled, List.dropLast_nil, ite_self]
    obtain ⟨f, hawaits⟩ := exists_awaits hplace
    refine complete_eq_nil_of_awaits hparse hawaits fun e he => ?_
    rcases he with ⟨hnil, -⟩ | hone
    · exact hne hnil
    · rw [hone, List.length_singleton] at hmany
      omega
  · refine ⟨pairwise_complete s line _, fun k => ?_⟩
    by_cases hnone : s.help line = .unrecognized
    · rw [show offered = [] from complete_eq_nil hnone, listed_eq_nil hnone]
      simp
    · simp only [help_eq_unrecognized_iff, not_forall] at hnone
      obtain ⟨fs, hparse, hsome⟩ := hnone
      obtain ⟨f, e, hawaits, he⟩ := exists_resolves_settled hsome (hfew fs hparse)
      exact mem_complete_iff_exists_listed hs.gains.sound hparse hawaits he

/-- Behind `sh i` both the words that begin so are offered and listed, and the hidden one is not.
When the next word begins, `i` is ambiguous. -/
theorem complete_eq_listed_show :
    Shell.LoadedWith ">" [showAndHide] ofShowAndHide ∧
      ofShowAndHide.complete "sh i" (currentWord "sh i") = ["ip", "ipv6"] ∧
      (∀ k, k ∈ ["ip", "ipv6"] ↔ ∃ st ∈ ofShowAndHide.listed "sh i",
        st.node.element.converter = none ∧ st.value.text = k) ∧
      parse "sh i " = some ["sh", "i"] ∧
      ofShowAndHide.root.Ambiguous (settled "sh i " ["sh", "i"]) ∧
      ofShowAndHide.complete "sh i " (currentWord "sh i ") = [] := by
  have hs : Shell.LoadedWith ">" [showAndHide] ofShowAndHide :=
    .load _ () .empty (by decide +kernel)
  have hcomplete : ofShowAndHide.complete "sh i" (currentWord "sh i") = ["ip", "ipv6"] := by
    decide +kernel
  have htyped : parse "sh i" = some ["sh", "i"] := by decide +kernel
  have hfew : ¬ ofShowAndHide.root.Ambiguous (settled "sh i" ["sh", "i"]) := by
    rw [CommandTree.ambiguous_iff]
    decide +kernel
  obtain ⟨-, -, -, hlisted, -⟩ := complete_eq_listed hs "sh i"
  obtain ⟨-, hmem⟩ := hlisted fun fs hparse => by
    cases htyped.symm.trans hparse
    exact hfew
  rw [hcomplete] at hmem
  have hparse : parse "sh i " = some ["sh", "i"] := by decide +kernel
  have hmany : ofShowAndHide.root.Ambiguous (settled "sh i " ["sh", "i"]) :=
    CommandTree.ambiguous_iff.mpr (by decide +kernel)
  obtain ⟨-, -, hnothing, -⟩ := complete_eq_listed hs "sh i "
  exact ⟨hs, hcomplete, hmem, hparse, hmany, hnothing _ hparse hmany⟩

end Shell

end Console
