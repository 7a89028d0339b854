import Console.Proofs.Shell.Calls
import Console.Proofs.Shell.EndMark
import Console.Proofs.Tree.Follows

/-!
# What help lists

Help for a line sorts the readings that may stand for it, with those that a look ahead adds, and
lists the last step of each. It leaves out the readings that end at hidden nodes, and the walk that
the line has typed, which only marks the end of a command.

* `filter_mergeSort`: what is in order keeps its order when other members are sorted in between;
* `Step.entry`, `Shell.listed`: the steps that help lists for a line, and the line of help for each;
  **`entries_help`**: the lines of help are those of these steps;
* `CommandTree.Ambiguous`: fragments of which one has more than one match;
* `help_eq_unrecognized_iff`, `help_eq_ambiguous_iff`: which lines are only reported;
* **`help_of_resolves`**: help for what comes next behind fragments that have one reading;
* **`Shell.describe_next`**: the text that is written about what comes next.
-/

namespace Console

open Text

universe u

variable {η : Type u} {σ : Type}

/-! ## The order of listings -/

/-- Members that are in order keep their places among each other when the list is sorted. -/
theorem filter_mergeSort {α : Type u} {le : α → α → Bool} {as : List α}
    (trans : ∀ a b c, le a b = true → le b c = true → le a c = true)
    (total : ∀ a b, (le a b || le b a) = true) {p : α → Bool}
    (h : (as.filter p).Pairwise fun a b => le a b = true) :
    (as.mergeSort le).filter p = as.filter p := by
  have hsub : (as.filter p).Sublist (as.mergeSort le) :=
    List.sublist_mergeSort trans total h List.filter_sublist
  have hkept : (as.filter p).Sublist ((as.mergeSort le).filter p) := by
    have hfiltered := hsub.filter p
    simpa only [List.filter_filter, Bool.and_self] using hfiltered
  exact (hkept.eq_of_length ((List.mergeSort_perm as le).filter p).length_eq.symm).symm

namespace Value

theorem compare_swap (v w : Value) : compare v w = (compare w v).swap := by
  cases v with
  | integer m =>
    cases w with
    | integer n => exact Std.OrientedOrd.eq_swap (a := m.toInt) (b := n.toInt)
    | word t => rfl
  | word s =>
    cases w with
    | integer n => rfl
    | word t => exact Std.OrientedOrd.eq_swap (a := s) (b := t)

instance : Std.OrientedOrd Value where
  eq_swap := compare_swap _ _

instance : Std.TransOrd Value where
  isLE_trans {u v w} huv hvw := by
    cases u with
    | integer l =>
      cases w with
      | word t => rfl
      | integer n =>
        cases v with
        | integer m => exact Std.TransOrd.isLE_trans (a := l.toInt) huv hvw
        | word s => cases hvw
    | word r =>
      cases v with
      | integer m => cases huv
      | word s =>
        cases w with
        | integer n => cases hvw
        | word t => exact Std.TransOrd.isLE_trans (a := r) huv hvw

end Value

namespace Expansion

theorem getLast?_extend (e : Expansion η) (s : Step η) : (e.extend s).steps.getLast? = some s :=
  List.getLast?_concat

theorem last?_extend (e : Expansion η) (s : Step η) : (e.extend s).last? = some s.node := by
  rw [last?, getLast?_extend, Option.map_some]

theorem completes_extend (e : Expansion (Handler σ)) (s : Step (Handler σ)) :
    (e.extend s).completes (some e.values) = false := by
  rw [← Bool.not_eq_true, completes_some]
  exact fun h => e.values_extend_ne s h.2

theorem completes_self {e : Expansion (Handler σ)} {st : Step (Handler σ)}
    (h : e.steps.getLast? = some st) (hhandler : st.node.handler.isSome = true) :
    e.completes (some e.values) = true :=
  completes_some.mpr ⟨⟨st.node, by rw [last?, h, Option.map_some], hhandler⟩, rfl⟩

/-- Listings are ordered by the values, and then by the keyword of the last node. -/
def listingOrder : Expansion η → Expansion η → Ordering :=
  compareLex (compareOn values) (compareOn fun e => e.last?.map CommandTree.keyword)

theorem listedBefore_eq (d e : Expansion η) : d.listedBefore e = (listingOrder d e).isLE := rfl

instance : Std.TransCmp (listingOrder (η := η)) := by
  unfold listingOrder
  infer_instance

theorem listedBefore_trans (c d e : Expansion η) (hcd : c.listedBefore d = true)
    (hde : d.listedBefore e = true) : c.listedBefore e = true := by
  rw [listedBefore_eq] at hcd hde ⊢
  exact Std.TransCmp.isLE_trans hcd hde

theorem listedBefore_total (d e : Expansion η) : (d.listedBefore e || e.listedBefore d) = true := by
  have hswap : listingOrder e d = (listingOrder d e).swap := Std.OrientedCmp.eq_swap
  rw [listedBefore_eq, listedBefore_eq, hswap]
  cases listingOrder d e <;> rfl

theorem listedBefore_extend (e : Expansion (Handler σ)) {s s' : Step (Handler σ)}
    (h : compare s.value s'.value = .lt) : (e.extend s).listedBefore (e.extend s') = true := by
  have hvalues (vs : List Value) : compare (vs ++ [s.value]) (vs ++ [s'.value]) = .lt := by
    induction vs with
    | nil => rw [List.nil_append, List.nil_append, List.compare_cons_cons, h, Ordering.lt_then]
    | cons v vs ih =>
      rw [List.cons_append, List.cons_append, List.compare_cons_cons, ih, Std.ReflOrd.compare_self,
        Ordering.eq_then]
  rw [listedBefore, values_extend, values_extend, hvalues, Ordering.lt_then, Ordering.isLE_lt]

end Expansion

/-! ## The steps that help lists -/

/-- The line of help for a step. -/
def Step.entry (s : Step η) : HelpEntry := ⟨s.value.text, s.node.element.description⟩

namespace Help

theorem eq_listing {h : Help} (hu : h ≠ unrecognized) (ha : h ≠ ambiguous) :
    h = listing h.entries h.marksEnd := by
  cases h with
  | unrecognized => exact absurd rfl hu
  | ambiguous => exact absurd rfl ha
  | listing entries complete => rfl

end Help

namespace CommandTree

/-- Some of these fragments has more than one match, and each of those before it has one. -/
def Ambiguous (t : CommandTree η) (fs : List String) : Prop :=
  ∃ before f after ss, fs = before ++ f :: after ∧ t.Walks before ss ∧
    2 ≤ (((Expansion.mk ss).reached t).stepsFor f).length

theorem ambiguous_iff {t : CommandTree η} {fs : List String} :
    t.Ambiguous fs ↔ 2 ≤ (expand t fs false).length :=
  forks_iff.symm

theorem Ambiguous.expand_eq {t : CommandTree η} {fs : List String} (h : t.Ambiguous fs)
    (gs : List String) (lookahead : Bool) : expand t (fs ++ gs) lookahead = expand t fs false := by
  have hmany := ambiguous_iff.mp h
  have hne : fs ≠ [] := by
    rintro rfl
    obtain ⟨before, f, after, ss, hsplit, -⟩ := h
    exact absurd hsplit.symm (List.append_ne_nil_of_right_ne_nil before (List.cons_ne_nil f after))
  exact expand_append_of_ne hne (by omega) gs lookahead

/-! ## What the empty text stands for -/

theorem mem_trees_iff {t c : CommandTree η} (ht : t.Sound) :
    c ∈ t.children.trees ↔ ∃ k, t.child? k = some c := by
  refine (Children.mem_trees (sound_iff.mp ht)).trans ⟨fun h => ⟨_, h⟩, fun ⟨k, hk⟩ => ?_⟩
  obtain ⟨rfl, -⟩ := sound_child ht hk
  exact hk

theorem pairwise_stepsFor_empty {t : CommandTree η} (ht : t.Sound) :
    (t.stepsFor "").Pairwise fun s s' => compare s.value s'.value = .lt := by
  cases hempty : t.child? "" with
  | some c =>
    rw [stepsFor_of_child hempty]
    exact List.pairwise_singleton _ _
  | none =>
    cases hrec : t.element.isRecursive with
    | true =>
      rw [stepsFor_empty_of_isRecursive hempty hrec]
      exact List.pairwise_singleton _ _
    | false =>
      rw [stepsFor_empty_of_not_isRecursive hempty hrec, List.pairwise_map]
      exact (Children.pairwise_trees (sound_iff.mp ht)).imp compare_lt_iff_lt.mpr

end CommandTree

namespace Shell

/-- The steps that help lists for a line, in order: the last steps of the readings that end at a
visible node, without the walk that the line has typed itself. -/
def listed (s : Shell σ) (line : String) : List (Step (Handler σ)) :=
  match parse line with
  | none => []
  | some fs =>
    let exact := if wantsNext line then expand s.root fs false else []
    if 2 ≤ exact.length then []
    else
      let readings := (expand s.root fs (wantsNext line)).mergeSort Expansion.listedBefore
      (readings.filter fun e =>
        e.isVisible && !e.completes (exact.head?.map Expansion.values)).filterMap fun e =>
          e.steps.getLast?

/-- **The lines of help are those of the listed steps.** -/
theorem entries_help (s : Shell σ) (line : String) :
    (s.help line).entries = (s.listed line).map Step.entry := by
  unfold help listed
  cases parse line with
  | none => rfl
  | some fs =>
    dsimp only
    generalize (if wantsNext line then expand s.root fs false else []) = exact
    have hshown (readings : List (Expansion (Handler σ))) (typed : Option (List Value)) :
        ((readings.filter Expansion.isVisible).filter fun e => !e.completes typed).filterMap
          Expansion.entry = ((readings.filter fun e => e.isVisible && !e.completes typed).filterMap
            fun e => e.steps.getLast?).map Step.entry := by
      rw [List.filter_filter, List.map_filterMap]
      simp only [Bool.and_comm]
      rfl
    split
    · rename_i hnone
      rw [hnone, List.mergeSort_nil]
      split_ifs <;> rfl
    · split
      · simp [Help.entries]
      · rename_i hfew
        rw [if_neg, ← hshown]
        · rfl
        · rcases exact with _ | ⟨e, _ | ⟨d, rest⟩⟩
          · simp
          · simp
          · exact absurd rfl (hfew e d rest)

theorem mem_listed {s : Shell σ} {line : String} {st : Step (Handler σ)} :
    st ∈ s.listed line ↔ ∃ fs, parse line = some fs ∧
      let exact := if wantsNext line then expand s.root fs false else []
      exact.length < 2 ∧ ∃ e ∈ expand s.root fs (wantsNext line), e.steps.getLast? = some st ∧
        st.node.hidden = false ∧ e.completes (exact.head?.map Expansion.values) = false := by
  unfold listed
  cases parse line with
  | none => simp
  | some fs =>
    simp only [Option.some.injEq, exists_eq_left']
    generalize (if wantsNext line then expand s.root fs false else []) = exact
    split_ifs with hmany
    · simp only [List.not_mem_nil, Nat.not_lt.mpr hmany, false_and]
    · rw [List.mem_filterMap]
      constructor
      · rintro ⟨e, he, hlast⟩
        obtain ⟨hmem, hkeep⟩ := List.mem_filter.mp he
        obtain ⟨hvisible, hgoes⟩ := Bool.and_eq_true_iff.mp hkeep
        obtain ⟨n, hn, hhidden⟩ := Expansion.isVisible_iff.mp hvisible
        rw [Expansion.last?, hlast, Option.map_some, Option.some.injEq] at hn
        exact ⟨by omega, e, List.mem_mergeSort.mp hmem, hlast, hn ▸ hhidden, by simpa using hgoes⟩
      · rintro ⟨-, e, hmem, hlast, hhidden, hgoes⟩
        have hvisible : e.isVisible = true :=
          Expansion.isVisible_iff.mpr ⟨st.node, by rw [Expansion.last?, hlast]; rfl, hhidden⟩
        exact ⟨e, List.mem_filter.mpr ⟨List.mem_mergeSort.mpr hmem, by simp [hvisible, hgoes]⟩,
          hlast⟩

/-! ## Lines that are only reported -/

theorem help_eq_unrecognized_iff {s : Shell σ} {line : String} :
    s.help line = .unrecognized ↔
      ∀ fs, parse line = some fs → expand s.root fs (wantsNext line) = [] := by
  unfold help
  cases parse line with
  | none => simp
  | some fs =>
    simp only [Option.some.injEq, forall_eq']
    split
    · rename_i hnone
      simp [hnone]
    · rename_i hsome
      split
      · exact ⟨nofun, fun hnone => absurd hnone hsome⟩
      · exact ⟨nofun, fun hnone => absurd hnone hsome⟩

theorem help_eq_ambiguous_iff {s : Shell σ} {line : String} :
    s.help line = .ambiguous ↔
      wantsNext line = true ∧ ∃ fs, parse line = some fs ∧ s.root.Ambiguous fs := by
  unfold help
  cases parse line with
  | none => simp
  | some fs =>
    simp only [Option.some.injEq, exists_eq_left', CommandTree.ambiguous_iff]
    cases wantsNext line with
    | false =>
      rw [if_neg Bool.false_ne_true]
      split <;> simp
    | true =>
      rw [if_pos rfl]
      rcases hexact : expand s.root fs false with _ | ⟨e, _ | ⟨d, rest⟩⟩
      · split <;> simp
      · split <;> simp
      · -- A look ahead adds nothing to readings that are ambiguous.
        have hmany : s.root.Ambiguous fs := CommandTree.ambiguous_iff.mpr (by simp [hexact])
        have hboth := hmany.expand_eq [] true
        rw [List.append_nil, hexact] at hboth
        simp [hboth]

/-! ## What comes next -/

theorem listed_of_resolves {s : Shell σ} (hs : s.root.Sound) {line : String} {fs : List String}
    {e : Expansion (Handler σ)} (hnext : wantsNext line = true) (hparse : parse line = some fs)
    (he : expand s.root fs false = [e]) :
    s.listed line = ((e.reached s.root).stepsFor "").filter fun st => !st.node.hidden := by
  have hsound : (e.reached s.root).Sound := (CommandTree.walks_of_expand he).sound_reached hs
  -- A step more makes another walk, which is left out only if it is hidden.
  have hextend (st : Step (Handler σ)) :
      ((e.extend st).isVisible && !(e.extend st).completes (some e.values)) = !st.node.hidden := by
    rw [e.completes_extend, Expansion.isVisible, e.last?_extend, Option.any_some, Bool.not_false,
      Bool.and_true]
  -- The walk itself is there only if it ends at a handler, and then it is complete.
  have hself : (if (e.reached s.root).handler.isSome then [e] else []).filter
      (fun d => d.isVisible && !d.completes (some e.values)) = [] := by
    split_ifs with hhandler
    · obtain ⟨n, hn⟩ := CommandTree.exists_last?_of_expand he
      obtain ⟨st, hst, rfl⟩ := Option.map_eq_some_iff.mp hn
      rw [Expansion.reached_of_last? hn] at hhandler
      simp [Expansion.completes_self hst hhandler]
    · rfl
  rw [listed, hparse]
  simp only [hnext, if_true, he, List.length_singleton, Nat.not_ofNat_le_one, if_false,
    List.head?_cons, Option.map_some, CommandTree.Resolves.expand_lookahead (.inr he)]
  rw [filter_mergeSort Expansion.listedBefore_trans Expansion.listedBefore_total]
  · rw [List.filter_append, hself, List.append_nil, List.filter_map, List.filterMap_map]
    simp only [Function.comp_def, hextend, e.getLast?_extend, List.filterMap_some]
  · rw [List.filter_append, hself, List.append_nil, List.filter_map, List.pairwise_map]
    have hordered := CommandTree.pairwise_stepsFor_empty hsound
    exact (hordered.imp fun h => e.listedBefore_extend h).filter _

theorem marksEnd_of_resolves {s : Shell σ} {line : String} {fs : List String}
    {e : Expansion (Handler σ)} (hnext : wantsNext line = true) (hparse : parse line = some fs)
    (he : expand s.root fs false = [e]) {n : CommandTree (Handler σ)} (hn : e.last? = some n) :
    (s.help line).marksEnd = (n.handler.isSome && !n.hidden) := by
  rw [Bool.eq_iff_iff, marksEnd_help, Bool.and_eq_true, Bool.not_eq_true']
  constructor
  · rintro ⟨-, fs', e', n', hparse', he', hn', hends⟩
    cases hparse.symm.trans hparse'
    cases he.symm.trans he'
    cases hn.symm.trans hn'
    exact hends
  · exact fun hends => ⟨hnext, fs, e, n, hparse, he, hn, hends⟩

/-- **Help for what comes next,** behind fragments that have one reading: what the empty text stands
for at the node that they lead to, as far as it is visible, and whether a command ends there. -/
theorem help_of_resolves {s : Shell σ} (hs : s.root.Sound) {line : String} {fs : List String}
    {e : Expansion (Handler σ)} (hnext : wantsNext line = true) (hparse : parse line = some fs)
    (he : expand s.root fs false = [e]) {n : CommandTree (Handler σ)} (hn : e.last? = some n)
    (hsome : n.stepsFor "" ≠ [] ∨ n.handler.isSome = true) :
    s.help line = .listing (((n.stepsFor "").filter fun st => !st.node.hidden).map Step.entry)
      (n.handler.isSome && !n.hidden) := by
  have hreached : e.reached s.root = n := Expansion.reached_of_last? hn s.root
  have hunrecognized : s.help line ≠ .unrecognized := fun h => by
    have hnone := help_eq_unrecognized_iff.mp h fs hparse
    rw [hnext, CommandTree.Resolves.expand_lookahead (.inr he), hreached] at hnone
    obtain ⟨hsteps, hself⟩ := List.append_eq_nil_iff.mp hnone
    rcases hsome with hsome | hsome
    · exact hsome (List.map_eq_nil_iff.mp hsteps)
    · rw [if_pos hsome] at hself
      cases hself
  have hambiguous : s.help line ≠ .ambiguous := fun h => by
    obtain ⟨-, fs', hparse', hmany⟩ := help_eq_ambiguous_iff.mp h
    cases hparse.symm.trans hparse'
    rw [CommandTree.ambiguous_iff, he, List.length_singleton] at hmany
    omega
  have hmarks := marksEnd_of_resolves hnext hparse he hn
  have hentries := (s.entries_help line).trans (congrArg _ (listed_of_resolves hs hnext hparse he))
  rw [Help.eq_listing hunrecognized hambiguous, hmarks, hentries, hreached]

theorem wantsNext_of_endsBlank {line : String} (h : endsBlank line = true) :
    wantsNext line = true := by
  rw [wantsNext, h, Bool.or_true]

/-- **What is written about what comes next,** for a line that ends in a blank: one line for each
visible child of the node that the fragments lead to, in ascending order of the keywords, then the
mark of a command if the node is one and is visible, and an empty line. Of fragments that are
ambiguous, and of those that have no reading, only a report is written. -/
theorem describe_next {prompt : String} {sets : List (CommandSet σ)} {s : Shell σ}
    (hs : Shell.LoadedWith prompt sets s) {line : String} {fs : List String}
    (hblank : endsBlank line = true) (hparse : parse line = some fs) (hfs : fs ≠ [])
    (sink : Sink) :
    (∀ e n, expand s.root fs false = [e] → e.last? = some n → n.element.isRecursive = false →
      n.child? "" = none → (n.children.trees ≠ [] ∨ n.handler.isSome = true) →
      let visible := n.children.trees.filter fun c => !c.hidden
      (∀ c, c ∈ visible ↔ (∃ k, n.child? k = some c) ∧ c.hidden = false) ∧
        visible.Pairwise (fun c d => c.keyword < d.keyword) ∧
        (s.describe line sink).mapError Sink.Refusal.cause = sink.write
          (String.join (visible.map fun c =>
            "  " ++ c.keyword ++ "\t" ++ c.element.description ++ "\n") ++
          (if n.handler.isSome && !n.hidden then "  <cr>\n" else "") ++ "\n")) ∧
      (s.root.Ambiguous fs → (s.describe line sink).mapError Sink.Refusal.cause =
        sink.write ("% Ambiguous command: \"" ++ line ++ "\"\n\n")) ∧
      (expand s.root fs false = [] → (s.describe line sink).mapError Sink.Refusal.cause =
        sink.write (line ++ "\n" ++ "% Unrecognized command\n\n")) := by
  have hsound := hs.gains.sound
  have hnext := wantsNext_of_endsBlank hblank
  refine ⟨fun e n he hn hplain hempty hsome => ?_, fun hmany => ?_, fun hnone => ?_⟩
  · have hnsound : n.Sound := by
      have hreached := (CommandTree.walks_of_expand he).sound_reached hsound
      rwa [Expansion.reached_of_last? hn] at hreached
    have hsteps := CommandTree.stepsFor_empty_of_not_isRecursive hempty hplain
    have hhelp := help_of_resolves hsound hnext hparse he hn (by simpa [hsteps] using hsome)
    refine ⟨fun c => ?_, ?_, ?_⟩
    · rw [List.mem_filter, Bool.not_eq_true', CommandTree.mem_trees_iff hnsound]
    · exact (Children.pairwise_trees (CommandTree.sound_iff.mp hnsound)).filter _
    · rw [mapError_describe, hhelp, hsteps, List.filter_map, List.map_map]
      dsimp only
      rw [List.map_map]
      rfl
  · rw [mapError_describe, help_eq_ambiguous_iff.mpr ⟨hnext, fs, hparse, hmany⟩]
  · have hmany : (expand s.root fs false).length ≠ 1 := by simp [hnone]
    have hboth := CommandTree.expand_append_of_ne hfs hmany [] true
    rw [List.append_nil, hnone] at hboth
    have hhelp : s.help line = .unrecognized := help_eq_unrecognized_iff.mpr fun fs' hparse' => by
      cases hparse.symm.trans hparse'
      rwa [hnext]
    rw [mapError_describe, hhelp]

/-- A command that takes words, of which one may be left out, beside a hidden one. -/
def showReleases : CommandSet Unit :=
  ⟨[⟨"show (version|ip|)", ["Show", "The release", "The addresses"], false,
      ⟨"show", 0, fun _ world => .finish (.ok .continue) world⟩⟩,
    .idle "show secret" true 1, .idle "shut IFNAME" false 2], none⟩

/-- The shell with these commands. -/
def ofShowReleases : Shell Unit := ((Shell.empty ">").load showReleases ()).shell

theorem describe_next_show :
    Shell.LoadedWith ">" [showReleases] ofShowReleases ∧ endsBlank "sho " = true ∧
      parse "sho " = some ["sho"] ∧
      (∃ e n, expand ofShowReleases.root ["sho"] false = [e] ∧ e.last? = some n ∧
        n.element.isRecursive = false ∧ n.child? "" = none ∧ n.handler.isSome = true) ∧
      (ofShowReleases.describe "sho " {}).mapError Sink.Refusal.cause =
        Sink.write "  ip\tThe addresses\n  version\tThe release\n  <cr>\n\n" {} ∧
      parse "s " = some ["s"] ∧ ofShowReleases.root.Ambiguous ["s"] ∧
      (ofShowReleases.describe "s " {}).mapError Sink.Refusal.cause =
        Sink.write "% Ambiguous command: \"s \"\n\n" {} ∧
      parse "x " = some ["x"] ∧ expand ofShowReleases.root ["x"] false = [] ∧
      (ofShowReleases.describe "x " {}).mapError Sink.Refusal.cause =
        Sink.write "x \n% Unrecognized command\n\n" {} := by
  have hs : Shell.LoadedWith ">" [showReleases] ofShowReleases :=
    .load _ () .empty (by decide +kernel)
  have hexpand : ((expand ofShowReleases.root ["sho"] false).map fun e => e.last?.map fun n =>
      ((n.element.isRecursive, (n.child? "").isNone, n.handler.isSome, n.hidden),
        (n.children.trees.filter fun c => !c.hidden).map fun c =>
          "  " ++ c.keyword ++ "\t" ++ c.element.description ++ "\n")) =
        [some ((false, true, true, false),
          ["  ip\tThe addresses\n", "  version\tThe release\n"])] := by
    decide +kernel
  obtain ⟨e, he, hlast⟩ := List.map_eq_singleton_iff.mp hexpand
  obtain ⟨n, hn, hnode⟩ := Option.map_eq_some_iff.mp hlast
  simp only [Prod.mk.injEq, Option.isNone_iff_eq_none] at hnode
  obtain ⟨⟨hplain, hempty, hhandler, hshown⟩, hlines⟩ := hnode
  have hmany : ofShowReleases.root.Ambiguous ["s"] :=
    CommandTree.ambiguous_iff.mpr (by decide +kernel)
  have hnone : expand ofShowReleases.root ["x"] false = [] :=
    List.length_eq_zero_iff.mp (by decide +kernel)
  have hshow : parse "sho " = some ["sho"] := by decide +kernel
  have hshort : parse "s " = some ["s"] := by decide +kernel
  have hother : parse "x " = some ["x"] := by decide +kernel
  have hne (f : String) : [f] ≠ [] := List.cons_ne_nil f []
  have hblank : endsBlank "sho " = true := by decide +kernel
  obtain ⟨-, -, htext⟩ :=
    (describe_next hs hblank hshow (hne _) {}).1 e n he hn hplain hempty (.inr hhandler)
  rw [hlines, hhandler, hshown] at htext
  exact ⟨hs, hblank, hshow, ⟨e, n, he, hn, hplain, hempty, hhandler⟩, htext,
    hshort, hmany, (describe_next hs (by decide +kernel) hshort (hne _) {}).2.1 hmany,
    hother, hnone, (describe_next hs (by decide +kernel) hother (hne _) {}).2.2 hnone⟩

end Shell

end Console
