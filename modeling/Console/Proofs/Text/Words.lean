import Console.Text.Blank
import Console.Text.Words
import Mathlib.Data.List.Basic
import Mathlib.Data.List.DropRight
import Mathlib.Data.List.TakeWhile

/-!
# Words as they may be typed

Any words without blanks can be typed on one line: a backslash makes each character literal, and a
pair of quotes stands for the empty word.

* `typed`: the line;
* `between_escape`: an escaped word is read as it was, with any line behind it;
* **`split_typed`**: the words of the line;
* **`split_trim_typed`**: so it is when the line has been trimmed.
-/

namespace Console.Text

/-! ## Trimming -/

theorem trimStart_eq_self {cs : List Char} (h : ∀ c ∈ cs.head?, isBlank c = false) :
    trimStart cs = cs := by
  cases cs with
  | nil => rfl
  | cons c cs => exact List.dropWhile_cons_of_neg (by simp [h c rfl])

theorem trimEnd_eq_self {cs : List Char} (h : ∀ c ∈ cs.getLast?, isBlank c = false) :
    trimEnd cs = cs := by
  have hrev : trimStart cs.reverse = cs.reverse :=
    trimStart_eq_self fun c hc => h c (by rwa [List.head?_reverse] at hc)
  rw [trimEnd, dropEndWhile]
  exact (congrArg List.reverse hrev).trans (List.reverse_reverse cs)

theorem trim_eq_self {s : String} (hhead : ∀ c ∈ s.toList.head?, isBlank c = false)
    (hlast : ∀ c ∈ s.toList.getLast?, isBlank c = false) : trim s = s := by
  rw [trim, trimStart_eq_self hhead, trimEnd_eq_self hlast, String.ofList_toList]

theorem trim_eq_empty {s : String} : trim s = "" ↔ ∀ c ∈ s.toList, isBlank c = true := by
  have hempty : trim s = "" ↔ trimEnd (trimStart s.toList) = [] := by
    rw [trim, ← String.toList_inj, String.toList_ofList]
    rfl
  rw [hempty, trimEnd, dropEndWhile, List.reverse_eq_nil_iff, List.dropWhile_eq_nil_iff, trimStart]
  constructor
  · intro h
    -- If characters were left, the first of them would not be blank.
    cases hrest : s.toList.dropWhile isBlank with
    | nil => exact List.dropWhile_eq_nil_iff.mp hrest
    | cons c cs =>
      have hnot : isBlank c = false := by
        have hhead := List.head?_dropWhile_not isBlank s.toList
        rwa [hrest] at hhead
      rw [h c (by simp [hrest])] at hnot
      cases hnot
  · intro h c hc
    rw [List.dropWhile_eq_nil_iff.mpr h] at hc
    cases hc

theorem toList_eq_trim (s : String) : s.toList =
    s.toList.takeWhile isBlank ++ (trim s).toList ++ (trimStart s.toList).rtakeWhile isBlank := by
  have hrest : (trim s).toList ++ (trimStart s.toList).rtakeWhile isBlank = trimStart s.toList := by
    rw [trim, String.toList_ofList]
    exact List.rdropWhile_append_rtakeWhile
  rw [List.append_assoc, hrest]
  exact List.takeWhile_append_dropWhile.symm

theorem isBlank_of_getLast?_trim {s : String} : ∀ c ∈ (trim s).toList.getLast?, isBlank c = false := by
  intro c hc
  rw [trim, String.toList_ofList, trimEnd, dropEndWhile, List.getLast?_reverse] at hc
  have hhead := List.head?_dropWhile_not isBlank (trimStart s.toList).reverse
  rwa [hc] at hhead

theorem isBlank_of_head?_trim {s : String} : ∀ c ∈ (trim s).toList.head?, isBlank c = false := by
  intro c hc
  obtain ⟨tail, htail⟩ : (trim s).toList <+: trimStart s.toList := by
    rw [trim, String.toList_ofList]
    exact List.rdropWhile_prefix isBlank _
  have hstart : (trimStart s.toList).head? = some c := by
    rw [← htail, List.head?_append, hc, Option.some_or]
  have hhead := List.head?_dropWhile_not isBlank s.toList
  rwa [show s.toList.dropWhile isBlank = trimStart s.toList from rfl, hstart] at hhead

theorem trim_trim (s : String) : trim (trim s) = trim s :=
  trim_eq_self isBlank_of_head?_trim isBlank_of_getLast?_trim

theorem mem_of_mem_trim {s : String} {c : Char} (h : c ∈ (trim s).toList) : c ∈ s.toList := by
  rw [toList_eq_trim s]
  exact List.mem_append_left _ (List.mem_append_right _ h)

theorem endsBlank_eq_false {s : String} :
    endsBlank s = false ↔ ∀ c ∈ s.toList.getLast?, isBlank c = false := by
  rw [endsBlank]
  cases s.toList.getLast? <;> simp

theorem endsBlank_iff_of_trim {s : String} (h : trim s ≠ "") :
    endsBlank s = true ↔ (trimStart s.toList).rtakeWhile isBlank ≠ [] := by
  have hline := toList_eq_trim s
  have hblank : ∀ c ∈ (trimStart s.toList).rtakeWhile isBlank, isBlank c = true :=
    fun c hc => List.mem_rtakeWhile_imp hc
  generalize (trimStart s.toList).rtakeWhile isBlank = tail at hline hblank
  have hne : (trim s).toList ≠ [] := mt String.toList_eq_nil_iff.mp h
  rw [← Bool.not_eq_false, endsBlank_eq_false, hline, not_iff_not]
  constructor
  · intro hlast
    by_contra htail
    rw [List.getLast?_append_of_ne_nil _ htail] at hlast
    have hnot := hlast _ (List.getLast?_eq_some_getLast htail)
    rw [hblank _ (List.getLast_mem htail)] at hnot
    cases hnot
  · rintro rfl
    rw [List.append_nil, List.getLast?_append_of_ne_nil _ hne]
    exact isBlank_of_getLast?_trim

namespace Words

/-! ## Typing words -/

/-- A word with every character behind a backslash, or a pair of quotes for the empty word. -/
def escape (word : List Char) : List Char :=
  if word.isEmpty then ['\'', '\''] else word.flatMap fun c => ['\\', c]

/-- Words as they may be typed on one line. -/
def typed : List String → List Char
  | [] => []
  | [w] => escape w.toList
  | w :: ws => escape w.toList ++ ' ' :: typed ws

theorem inWord_escape {cs : List Char} (h : ∀ c ∈ cs, c ≠ '\n') (w rest : List Char) :
    inWord w (cs.flatMap (fun c => ['\\', c]) ++ rest) = inWord (w ++ cs) rest := by
  induction cs generalizing w with
  | nil => rw [List.flatMap_nil, List.nil_append, List.append_nil]
  | cons c cs ih =>
    have hc : c ≠ '\n' := h c List.mem_cons_self
    have hcs := ih (fun d hd => h d (List.mem_cons_of_mem c hd)) (w ++ [c])
    rw [List.append_assoc, List.singleton_append] at hcs
    rw [List.flatMap_cons, List.append_assoc, List.cons_append, List.singleton_append,
      inWord, hcs]
    exact hc

theorem between_escape {w : List Char} (h : ∀ c ∈ w, c ≠ '\n') (rest : List Char) :
    between (escape w ++ rest) = inWord w rest := by
  cases w with
  | nil => rfl
  | cons c cs =>
    have hc : c ≠ '\n' := h c List.mem_cons_self
    have hcs := inWord_escape (fun d hd => h d (List.mem_cons_of_mem c hd)) [c] rest
    rw [List.singleton_append] at hcs
    rw [escape, if_neg (by simp), List.flatMap_cons, List.append_assoc, List.cons_append,
      List.singleton_append, between, hcs]
    exact hc

theorem inWord_space (w cs : List Char) : inWord w (' ' :: cs) = emit w (between cs) := by
  simp [inWord, isSeparator]

theorem typed_cons (w : String) {ws : List String} (h : ws ≠ []) :
    typed (w :: ws) = escape w.toList ++ ' ' :: typed ws := by
  cases ws with
  | nil => exact absurd rfl h
  | cons v vs => rfl

/-- **The words of the line.** -/
theorem split_typed {ws : List String} (h : ∀ w ∈ ws, ∀ c ∈ w.toList, c ≠ '\n') :
    between (typed ws) = some ws := by
  induction ws with
  | nil => rfl
  | cons w ws ih =>
    have hw := between_escape (h w List.mem_cons_self)
    have hws := ih fun v hv => h v (List.mem_cons_of_mem w hv)
    by_cases hne : ws = []
    · subst hne
      have hlast := hw []
      rw [List.append_nil] at hlast
      rw [typed, hlast, inWord, emit, Option.map_some, String.ofList_toList]
    · rw [typed_cons w hne, hw, inWord_space, hws, emit, Option.map_some, String.ofList_toList]

/-! ## The ends of the line -/

theorem isBlank_of_mem_escape {w : List Char} (h : ∀ c ∈ w, isBlank c = false) :
    ∀ c ∈ escape w, isBlank c = false := by
  intro c hc
  unfold escape at hc
  split_ifs at hc with hw
  · rcases List.mem_pair.mp hc with rfl | rfl <;> decide
  · obtain ⟨d, hd, hc⟩ := List.mem_flatMap.mp hc
    rcases List.mem_pair.mp hc with rfl | rfl
    · decide
    · exact h c hd

theorem escape_ne_nil (w : List Char) : escape w ≠ [] := by
  cases w <;> simp [escape]

theorem typed_ne_nil {ws : List String} (h : ws ≠ []) : typed ws ≠ [] := by
  cases ws with
  | nil => exact absurd rfl h
  | cons w ws =>
    by_cases hne : ws = []
    · subst hne
      exact escape_ne_nil _
    · rw [typed_cons w hne]
      simp

theorem isBlank_of_head?_typed {ws : List String}
    (h : ∀ w ∈ ws, ∀ c ∈ w.toList, isBlank c = false) :
    ∀ c ∈ (typed ws).head?, isBlank c = false := by
  cases ws with
  | nil => exact fun c hc => by cases hc
  | cons w ws =>
    have hw := isBlank_of_mem_escape (h w List.mem_cons_self)
    intro c hc
    by_cases hne : ws = []
    · subst hne
      exact hw c (List.mem_of_head? hc)
    · rw [typed_cons w hne, List.head?_append_of_ne_nil _ (escape_ne_nil _)] at hc
      exact hw c (List.mem_of_head? hc)

theorem isBlank_of_getLast?_typed {ws : List String}
    (h : ∀ w ∈ ws, ∀ c ∈ w.toList, isBlank c = false) :
    ∀ c ∈ (typed ws).getLast?, isBlank c = false := by
  induction ws with
  | nil => exact fun c hc => by cases hc
  | cons w ws ih =>
    intro c hc
    by_cases hne : ws = []
    · subst hne
      exact isBlank_of_mem_escape (h w List.mem_cons_self) c (List.mem_of_getLast? hc)
    · refine ih (fun v hv => h v (List.mem_cons_of_mem w hv)) c ?_
      rwa [typed_cons w hne, List.getLast?_append_of_ne_nil _ (List.cons_ne_nil _ _),
        List.getLast?_cons_of_ne_nil (typed_ne_nil hne)] at hc

/-- **Trimming the line leaves its words.** -/
theorem split_trim_typed {ws : List String} (h : ∀ w ∈ ws, ∀ c ∈ w.toList, isBlank c = false) :
    split (trim (String.ofList (typed ws))) = some ws := by
  have hnewline : ∀ w ∈ ws, ∀ c ∈ w.toList, c ≠ '\n' := by
    rintro w hw c hc rfl
    exact absurd (h w hw _ hc) (by decide)
  rw [trim_eq_self, split, String.toList_ofList, split_typed hnewline]
  · rw [String.toList_ofList]
    exact isBlank_of_head?_typed h
  · rw [String.toList_ofList]
    exact isBlank_of_getLast?_typed h

end Words

end Console.Text
