import Console.Proofs.Text.Words
import Mathlib.Data.List.Induction

/-!
# Places in a line

Splitting calls one function for each place of a line. Here the place is a value that changes with
every character, so that a line can be cut anywhere, and be read on from the place that the first
part leads to.

* `Place`, `Place.next`, `Place.ended`: a place, where a character leads, and the word that it ends;
* **`Place.read_cons`**: one character;
* `Place.after`, `Place.endedBy`, **`Place.read_append`**: the place behind a text, the words that the
  text ends, and how what follows is read;
* `Plain`, `EndsInComment`, `Place.Ends`, **`after_plain`**: where a text without quotes and
  backslashes leads.
-/

namespace Console.Text.Words

theorem isSeparator_iff {c : Char} : isSeparator c = true ↔ c = ' ' ∨ c = '\t' ∨ c = '\n' := by
  rw [isSeparator, Bool.or_eq_true, Bool.or_eq_true, beq_iff_eq, beq_iff_eq, beq_iff_eq, or_assoc]

theorem isBlank_of_isSeparator {c : Char} (h : isSeparator c = true) : isBlank c = true := by
  rcases isSeparator_iff.mp h with rfl | rfl | rfl <;> decide

/-- A place in a line, with the part of a word that has been read. -/
inductive Place where
  | between
  | inWord (word : List Char)
  | inSingle (word : List Char)
  | inDouble (word : List Char)
  | inComment
  /-- Behind a backslash between words. -/
  | escape
  /-- Behind a backslash inside a word, outside quotes. -/
  | escapeInWord (word : List Char)
  /-- Behind a backslash between double quotes. -/
  | escapeInDouble (word : List Char)
  deriving DecidableEq, Repr

namespace Place

/-- The words of what follows a place. -/
def read : Place → List Char → Option (List String)
  | between, cs => Words.between cs
  | inWord w, cs => Words.inWord w cs
  | inSingle w, cs => Words.inSingle w cs
  | inDouble w, cs => Words.inDouble w cs
  | inComment, cs => Words.inComment cs
  | escape, cs => Words.between ('\\' :: cs)
  | escapeInWord w, cs => Words.inWord w ('\\' :: cs)
  | escapeInDouble w, cs => Words.inDouble w ('\\' :: cs)

/-- Where a character leads. -/
def next : Place → Char → Place
  | between, c =>
    if c = '\'' then inSingle [] else if c = '"' then inDouble [] else if c = '\\' then escape
    else if c = '#' then inComment else if isSeparator c then between else inWord [c]
  | inWord w, c =>
    if c = '\'' then inSingle w else if c = '"' then inDouble w else if c = '\\' then escapeInWord w
    else if isSeparator c then between else inWord (w ++ [c])
  | inSingle w, c => if c = '\'' then inWord w else inSingle (w ++ [c])
  | inDouble w, c =>
    if c = '"' then inWord w else if c = '\\' then escapeInDouble w else inDouble (w ++ [c])
  | inComment, c => if c = '\n' then between else inComment
  | escape, c => if c = '\n' then between else inWord [c]
  | escapeInWord w, c => if c = '\n' then inWord w else inWord (w ++ [c])
  | escapeInDouble w, c =>
    if c = '\n' then inDouble w else inDouble (w ++ if isEscapable c then [c] else ['\\', c])

/-- The word that a character ends, if it ends one. -/
def ended : Place → Char → List String
  | inWord w, c => if isSeparator c then [String.ofList w] else []
  | _, _ => []

theorem map_nil_append (ws : Option (List String)) : ws.map (([] : List String) ++ ·) = ws := by
  cases ws <;> rfl

/-- **One character**: it may end a word, and what follows it is read at the place where it leads. -/
theorem read_cons (p : Place) (c : Char) (cs : List Char) :
    p.read (c :: cs) = ((p.next c).read cs).map (p.ended c ++ ·) := by
  cases p with
  | between =>
    simp only [ended, next, map_nil_append]
    split_ifs with hquote hdouble hback hcomment hsep
    · subst hquote; rfl
    · subst hdouble; rfl
    · subst hback; rfl
    · subst hcomment; rfl
    · rw [read, Words.between, if_pos hsep]
      · rfl
      all_goals simp [*]
    · rw [read, Words.between, if_neg hsep]
      · rfl
      all_goals simp [*]
  | inWord w =>
    simp only [ended, next]
    by_cases hsep : isSeparator c = true
    · have hplain : c ≠ '\'' ∧ c ≠ '"' ∧ c ≠ '\\' := by
        refine ⟨?_, ?_, ?_⟩ <;> rintro rfl <;> cases hsep
      rw [if_neg hplain.1, if_neg hplain.2.1, if_neg hplain.2.2, if_pos hsep, if_pos hsep]
      change Words.inWord w (c :: cs) = emit w (Words.between cs)
      rw [Words.inWord, if_pos hsep]
      all_goals simp [hplain]
    · rw [if_neg hsep, if_neg hsep, map_nil_append]
      split_ifs with hquote hdouble hback
      · subst hquote; rfl
      · subst hdouble; rfl
      · subst hback; rfl
      · change Words.inWord w (c :: cs) = Words.inWord (w ++ [c]) cs
        rw [Words.inWord, if_neg hsep]
        all_goals simp [*]
  | inSingle w =>
    simp only [ended, next, map_nil_append]
    split_ifs with hquote
    · subst hquote; rfl
    · rw [read, Words.inSingle]
      · rfl
      · exact hquote
  | inDouble w =>
    simp only [ended, next, map_nil_append]
    split_ifs with hquote hback
    · subst hquote; rfl
    · subst hback; rfl
    · rw [read, Words.inDouble]
      · rfl
      all_goals simp [*]
  | inComment =>
    simp only [ended, next, map_nil_append]
    split_ifs with hnewline
    · subst hnewline; rfl
    · rw [read, Words.inComment]
      · rfl
      · exact hnewline
  | escape =>
    simp only [ended, next, map_nil_append]
    split_ifs with hnewline
    · subst hnewline; rfl
    · change Words.between ('\\' :: c :: cs) = Words.inWord [c] cs
      rw [Words.between]
      exact hnewline
  | escapeInWord w =>
    simp only [ended, next, map_nil_append]
    split_ifs with hnewline
    · subst hnewline; rfl
    · change Words.inWord w ('\\' :: c :: cs) = Words.inWord (w ++ [c]) cs
      rw [Words.inWord]
      exact hnewline
  | escapeInDouble w =>
    simp only [ended, next, map_nil_append]
    by_cases hnewline : c = '\n'
    · subst hnewline; rfl
    · rw [if_neg hnewline]
      change Words.inDouble w ('\\' :: c :: cs) = Words.inDouble (w ++ _) cs
      rw [Words.inDouble]
      exact hnewline

/-! ## Texts -/

/-- Where a text leads. -/
def after (p : Place) (cs : List Char) : Place := cs.foldl next p

/-- The words that a text ends. -/
def endedBy : Place → List Char → List String
  | _, [] => []
  | p, c :: cs => p.ended c ++ (p.next c).endedBy cs

theorem after_cons (p : Place) (c : Char) (cs : List Char) :
    p.after (c :: cs) = (p.next c).after cs := rfl

theorem after_append_singleton (p : Place) (cs : List Char) (c : Char) :
    p.after (cs ++ [c]) = (p.after cs).next c :=
  List.foldl_concat next p c cs

/-- **A text in two parts** is read on from the place where the first part leads. -/
theorem read_append (p : Place) (cs ds : List Char) :
    p.read (cs ++ ds) = ((p.after cs).read ds).map (p.endedBy cs ++ ·) := by
  induction cs generalizing p with
  | nil => exact (map_nil_append _).symm
  | cons c cs ih =>
    rw [List.cons_append, read_cons, ih, Option.map_map, after_cons, endedBy]
    congr 1
    funext ws
    exact (List.append_assoc _ _ ws).symm

end Place

theorem between_append (cs ds : List Char) : between (cs ++ ds) =
    ((Place.between.after cs).read ds).map (Place.between.endedBy cs ++ ·) :=
  Place.read_append .between cs ds

/-! ## Texts without quotes and backslashes -/

variable {cs : List Char}

/-- The text has no quotes and no backslashes. -/
def Plain (cs : List Char) : Prop := ∀ c ∈ cs, c ≠ '\'' ∧ c ≠ '"' ∧ c ≠ '\\'

instance (cs : List Char) : Decidable (Plain cs) := List.decidableBAll _ cs

/-- The text ends in a comment: `#` stands where a word could begin, and no line feed behind it. -/
def EndsInComment (cs : List Char) : Prop :=
  ∃ u v, cs = u ++ '#' :: v ∧ (∀ c ∈ u.getLast?, isSeparator c = true) ∧ '\n' ∉ v

/-- What is known of a text without quotes and backslashes that leads to a place. -/
inductive Place.Ends : Place → List Char → Prop where
  | between {cs : List Char} (separates : ∀ c ∈ cs.getLast?, isSeparator c = true) :
    Ends between cs
  | inWord {u w : List Char} (ne : w ≠ []) (inside : ∀ c ∈ w, isSeparator c = false)
    (begins : ∀ c ∈ u.getLast?, isSeparator c = true) : Ends (inWord w) (u ++ w)
  | inComment {cs : List Char} (comment : EndsInComment cs) : Ends inComment cs

theorem Place.ends_between {c : Char} (h : isSeparator c = true) (cs : List Char) :
    Ends .between (cs ++ [c]) := by
  refine .between fun d hd => ?_
  rw [List.getLast?_concat, Option.mem_some_iff] at hd
  exact hd ▸ h

theorem Place.Ends.next {p : Place} {c : Char} (h : p.Ends cs)
    (hc : c ≠ '\'' ∧ c ≠ '"' ∧ c ≠ '\\') : (p.next c).Ends (cs ++ [c]) := by
  obtain ⟨hquote, hdouble, hback⟩ := hc
  cases h with
  | between separates =>
    simp only [Place.next, if_neg hquote, if_neg hdouble, if_neg hback]
    split_ifs with hcomment hsep
    · exact .inComment ⟨cs, [], by rw [hcomment], separates, List.not_mem_nil⟩
    · exact ends_between hsep cs
    · refine .inWord (List.cons_ne_nil c []) (fun d hd => ?_) separates
      rw [List.mem_singleton.mp hd, Bool.eq_false_iff]
      exact hsep
  | @inWord u w ne inside begins =>
    simp only [Place.next, if_neg hquote, if_neg hdouble, if_neg hback]
    split_ifs with hsep
    · exact ends_between hsep _
    · rw [List.append_assoc]
      refine .inWord (List.append_ne_nil_of_left_ne_nil ne [c]) (fun d hd => ?_) begins
      rcases List.mem_append.mp hd with hd | hd
      · exact inside d hd
      · rw [List.mem_singleton.mp hd, Bool.eq_false_iff]
        exact hsep
  | inComment comment =>
    rw [Place.next]
    split_ifs with hnewline
    · exact ends_between (by rw [hnewline]; rfl) cs
    · obtain ⟨u, v, rfl, hu, hv⟩ := comment
      refine .inComment ⟨u, v ++ [c], by simp, hu, fun hmem => ?_⟩
      rcases List.mem_append.mp hmem with hmem | hmem
      · exact hv hmem
      · exact hnewline (List.mem_singleton.mp hmem).symm

/-- **Where a text without quotes and backslashes leads**: between words, into a word that it ends
with, or into a comment. -/
theorem after_plain (h : Plain cs) : (Place.between.after cs).Ends cs := by
  induction cs using List.reverseRecOn with
  | nil => exact .between fun c hc => by cases hc
  | append_singleton cs c ih =>
    rw [Place.after_append_singleton]
    exact (ih fun d hd => h d (List.mem_append_left _ hd)).next
      (h c (List.mem_append_right _ (List.mem_singleton_self c)))

end Console.Text.Words
