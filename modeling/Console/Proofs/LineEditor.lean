import Console.LineEditor
import Mathlib.Data.List.DropRight

/-!
# Completing the last word

Completion replaces the last word of the line. The line is only added to when this word begins
everything that it is replaced by.

* `toList_eq_currentWord`, `currentWord_of_append`: the line and its last word;
* **`prefix_commonPrefix`**: what begins the longest text with which some texts begin;
* **`LineState.prefix_complete_iff`**: when the completed line begins with the line.
-/

namespace Console

open Text

/-! ## The word being typed -/

theorem isBlank_of_mem_currentWord {line : String} :
    ∀ c ∈ (currentWord line).toList, isBlank c = false := by
  intro c hc
  rw [currentWord, String.toList_ofList, List.mem_reverse] at hc
  simpa using List.mem_takeWhile_imp hc

theorem toList_eq_currentWord (line : String) :
    line.toList = line.toList.rdropWhile (fun c => !isBlank c) ++ (currentWord line).toList := by
  rw [currentWord, String.toList_ofList]
  exact List.rdropWhile_append_rtakeWhile.symm

/-- A text without blanks is the last word, if it stands at the end of the line behind a blank or
at the beginning. -/
theorem currentWord_of_append {line : String} {before word : List Char}
    (hline : line.toList = before ++ word) (hword : ∀ c ∈ word, isBlank c = false)
    (hbefore : ∀ c ∈ before.getLast?, isBlank c = true) : (currentWord line).toList = word := by
  have hstop : before.reverse.takeWhile (fun c => !isBlank c) = [] := by
    cases hlast : before.reverse with
    | nil => rfl
    | cons c cs =>
      have hc : isBlank c = true := hbefore c (by rw [← List.head?_reverse, hlast]; rfl)
      rw [List.takeWhile_cons_of_neg (by rw [hc]; exact Bool.false_ne_true)]
  rw [currentWord, String.toList_ofList, hline, List.reverse_append,
    List.takeWhile_append_of_pos fun c hc => by rw [hword c (List.mem_reverse.mp hc)]; rfl,
    hstop, List.append_nil, List.reverse_reverse]

/-! ## Common prefixes -/

theorem prefix_sharedPrefix {p as bs : List Char} :
    p <+: sharedPrefix as bs ↔ p <+: as ∧ p <+: bs := by
  fun_induction sharedPrefix as bs generalizing p with
  | case1 a as bs ih =>
    cases p with
    | nil => simp
    | cons c p =>
      rw [List.cons_prefix_cons, List.cons_prefix_cons, List.cons_prefix_cons, ih, and_and_left]
  | case2 a as b bs hne =>
    cases p with
    | nil => simp
    | cons c p =>
      simp only [List.cons_prefix_cons, List.prefix_nil, reduceCtorEq, false_iff]
      rintro ⟨⟨rfl, -⟩, rfl, -⟩
      exact hne rfl
  | case3 as bs h =>
    cases p with
    | nil => simp
    | cons c p =>
      simp only [List.prefix_nil, reduceCtorEq, false_iff]
      rintro ⟨⟨u, rfl⟩, ⟨v, rfl⟩⟩
      exact h _ _ _ _ rfl rfl

theorem prefix_foldl_sharedPrefix {p as : List Char} {bss : List (List Char)} :
    p <+: bss.foldl sharedPrefix as ↔ p <+: as ∧ ∀ bs ∈ bss, p <+: bs := by
  induction bss generalizing as with
  | nil => simp
  | cons bs bss ih =>
    rw [List.foldl_cons, ih, prefix_sharedPrefix, List.forall_mem_cons, and_assoc]

/-- **What begins the longest text with which some texts begin:** whatever begins all of them. -/
theorem prefix_commonPrefix {p : List Char} {ss : List String} (h : ss ≠ []) :
    p <+: (commonPrefix ss).toList ↔ ∀ s ∈ ss, p <+: s.toList := by
  cases ss with
  | nil => exact absurd rfl h
  | cons s ss =>
    rw [commonPrefix, String.toList_ofList, prefix_foldl_sharedPrefix, List.forall_mem_cons,
      List.forall_mem_map]

namespace LineState

variable {s : LineState}

theorem exists_replaceWord (s : LineState) : ∃ kept,
    s.buffer.toList = kept ++ (currentWord s.buffer).toList ∧
      ∀ replacement, (s.replaceWord replacement).buffer.toList = kept ++ replacement.toList := by
  have hline := toList_eq_currentWord s.buffer
  generalize s.buffer.toList.rdropWhile (fun c => !isBlank c) = kept at hline
  refine ⟨kept, hline, fun replacement => ?_⟩
  have hlength : s.buffer.length - (currentWord s.buffer).length = kept.length := by
    rw [← String.length_toList, ← String.length_toList, hline, List.length_append,
      Nat.add_sub_cancel]
  rw [replaceWord, String.toList_append, String.toList_ofList, hlength, hline, List.take_left]

theorem prefix_replaceWord (s : LineState) (replacement : String) :
    s.buffer.toList <+: (s.replaceWord replacement).buffer.toList ↔
      (currentWord s.buffer).toList <+: replacement.toList := by
  obtain ⟨kept, hline, hreplaced⟩ := s.exists_replaceWord
  rw [hline, hreplaced, List.prefix_append_right_inj]

theorem prefix_append_space {line k : String} :
    (currentWord line).toList <+: (k ++ " ").toList ↔ (currentWord line).toList <+: k.toList := by
  rw [String.toList_append, show " ".toList = [' '] from rfl, List.prefix_concat_iff]
  refine or_iff_right fun heq => ?_
  have hspace : ' ' ∈ (currentWord line).toList := by simp [heq]
  exact absurd (isBlank_of_mem_currentWord ' ' hspace) (by decide)

section Complete

variable {s : LineState} {a : Assistant} {k l : String} {ks : List String}

theorem complete_of_nil (h : a.complete s.buffer (currentWord s.buffer) = []) :
    s.complete a = (.ignore, s) := by
  rw [complete, h]

theorem complete_of_singleton (h : a.complete s.buffer (currentWord s.buffer) = [k]) :
    s.complete a = (.redraw, s.replaceWord (k ++ " ")) := by
  rw [complete, h]

theorem complete_of_many (h : a.complete s.buffer (currentWord s.buffer) = k :: l :: ks) :
    s.complete a =
      if (currentWord s.buffer).utf8ByteSize < (commonPrefix (k :: l :: ks)).utf8ByteSize then
        (.redraw, s.replaceWord (commonPrefix (k :: l :: ks)))
      else (.display ("  ".intercalate (k :: l :: ks) ++ "\n"), s) := by
  rw [complete, h]

end Complete

/-- **When completion only adds to the line**: the last word begins all completions, or there are
several that agree on no more bytes than it has, so that they are shown and the line stays. -/
theorem prefix_complete_iff (s : LineState) (a : Assistant) :
    let word := currentWord s.buffer
    let offered := a.complete s.buffer word
    s.buffer.toList <+: (s.complete a).2.buffer.toList ↔
      (∀ k ∈ offered, word.toList <+: k.toList) ∨
        2 ≤ offered.length ∧ (commonPrefix offered).utf8ByteSize ≤ word.utf8ByteSize := by
  intro word offered
  rcases hoffered : offered with _ | ⟨k, _ | ⟨l, ks⟩⟩
  · rw [complete_of_nil hoffered]
    exact iff_of_true List.prefix_rfl (.inl nofun)
  · rw [complete_of_singleton hoffered, prefix_replaceWord, prefix_append_space]
    simp [word]
  · rw [complete_of_many hoffered]
    split_ifs with hmore
    · rw [prefix_replaceWord, prefix_commonPrefix (List.cons_ne_nil _ _)]
      exact (or_iff_left fun hboth => absurd hmore (Nat.not_lt.mpr hboth.2)).symm
    · exact iff_of_true List.prefix_rfl (.inr ⟨by simp, Nat.not_lt.mp hmore⟩)

end LineState

end Console
