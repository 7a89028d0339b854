import Console.Spec.Compile
import Mathlib.Data.List.DropRight

/-!
# How lexemes join

The lexemes of a joined text are the lexemes of its parts, when the place where they are joined is
no place inside a word.

* `Lexeme.ofChars_blank`, `Lexeme.ofChars_marker`: what a blank or a marker does;
* **`ofChars_append`**: a text that goes on with a blank or a marker;
* **`ofChars_trim`**: outer blanks do not count;
* `Lexeme.ofChars_word`, `Lexeme.isArgspec_of_mem`: words are argspecs;
* `compile_eq_ok`, `compile_eq_error`: compiling is reading the lexemes.
-/

namespace Console

open Text

/-- A text that a specification can hold as one word: it is not empty, and has no blank and no
marker of a group. -/
def IsArgspec (s : String) : Prop :=
  s ≠ "" ∧ ∀ c ∈ s.toList, isBlank c = false ∧ c ∉ ['(', ')', '{', '}', '|']

namespace Lexeme

variable {w cs ds : List Char} {c : Char}

/-! ## Characters -/

theorem marker?_eq_none : marker? c = none ↔ c ∉ ['(', ')', '{', '}', '|'] := by
  unfold marker?
  split <;> simp_all

theorem isWordChar_iff :
    isWordChar c = true ↔ isBlank c = false ∧ c ∉ ['(', ')', '{', '}', '|'] := by
  rw [← marker?_eq_none, isWordChar, Bool.and_eq_true, Option.isNone_iff_eq_none,
    Bool.not_eq_true', and_comm]

theorem marker?_of_isBlank (h : isBlank c = true) : marker? c = none := by
  rw [marker?_eq_none]
  intro hc
  simp only [List.mem_cons, List.not_mem_nil, or_false] at hc
  rcases hc with rfl | rfl | rfl | rfl | rfl <;> exact absurd h (by decide)

theorem marker?_of_isWordChar (h : isWordChar c = true) : marker? c = none :=
  marker?_eq_none.mpr (isWordChar_iff.mp h).2

theorem isBlank_of_isWordChar (h : isWordChar c = true) : isBlank c = false :=
  (isWordChar_iff.mp h).1

theorem isWordChar_of_isBlank (h : isBlank c = true) : isWordChar c = false := by
  rw [isWordChar, h, Bool.not_true, Bool.and_false]

theorem isWordChar_of_marker? {m : Lexeme} (h : marker? c = some m) : isWordChar c = false := by
  rw [isWordChar, h, Option.isNone_some, Bool.false_and]

/-! ## Reading on -/

theorem scan_wordChar (h : isWordChar c = true) : scan w (c :: cs) = scan (w ++ [c]) cs := by
  rw [scan, marker?_of_isWordChar h]
  simp only [isBlank_of_isWordChar h, Bool.false_eq_true, if_false]

theorem scan_blank (h : isBlank c = true) : scan w (c :: cs) = flush w ++ scan [] cs := by
  rw [scan, marker?_of_isBlank h]
  simp only [h, if_true]

theorem scan_marker {m : Lexeme} (h : marker? c = some m) :
    scan w (c :: cs) = flush w ++ m :: scan [] cs := by
  rw [scan, h]

theorem scan_wordChars (h : ∀ c ∈ ds, isWordChar c = true) :
    scan w (ds ++ cs) = scan (w ++ ds) cs := by
  induction ds generalizing w with
  | nil => rw [List.nil_append, List.append_nil]
  | cons d ds ih =>
    rw [List.cons_append, scan_wordChar (h d List.mem_cons_self),
      ih fun c hc => h c (List.mem_cons_of_mem d hc), List.append_assoc, List.singleton_append]

/-- A word ends where a text begins that is empty or begins with a blank or a marker. -/
def Breaks (ds : List Char) : Prop := ∀ d ∈ ds.head?, isWordChar d = false

theorem breaks_cons (h : isWordChar c = false) : Breaks (c :: ds) := by
  rintro d hd
  cases hd
  exact h

theorem scan_of_breaks (h : Breaks ds) : scan w ds = flush w ++ scan [] ds := by
  cases ds with
  | nil => exact (List.append_nil _).symm
  | cons d ds =>
    have hd : isWordChar d = false := h d rfl
    cases hm : marker? d with
    | some m =>
      rw [scan_marker hm, scan_marker hm]
      rfl
    | none =>
      have hb : isBlank d = true := by
        by_contra hb
        rw [Bool.not_eq_true] at hb
        rw [isWordChar_iff.mpr ⟨hb, marker?_eq_none.mp hm⟩] at hd
        exact absurd hd (by decide)
      rw [scan_blank hb, scan_blank hb]
      rfl

theorem scan_append (h : Breaks ds) : scan w (cs ++ ds) = scan w cs ++ scan [] ds := by
  induction cs generalizing w with
  | nil => exact scan_of_breaks h
  | cons c cs ih =>
    rw [List.cons_append, scan, scan]
    split
    · rw [ih, List.append_assoc, List.cons_append]
    · split
      · rw [ih, List.append_assoc]
      · exact ih

/-! ## Texts -/

theorem ofChars_blank (h : isBlank c = true) : ofChars (c :: cs) = ofChars cs := scan_blank h

theorem ofChars_marker {m : Lexeme} (h : marker? c = some m) :
    ofChars (c :: cs) = m :: ofChars cs := scan_marker h

/-- **The lexemes of a text that goes on with a blank or a marker are those of both its parts.** -/
theorem ofChars_append (h : Breaks ds) : ofChars (cs ++ ds) = ofChars cs ++ ofChars ds :=
  scan_append h

theorem ofChars_append_blank (h : isBlank c = true) :
    ofChars (cs ++ c :: ds) = ofChars cs ++ ofChars ds := by
  rw [ofChars_append (breaks_cons (isWordChar_of_isBlank h)), ofChars_blank h]

theorem ofChars_append_marker {m : Lexeme} (h : marker? c = some m) :
    ofChars (cs ++ c :: ds) = ofChars cs ++ m :: ofChars ds := by
  rw [ofChars_append (breaks_cons (isWordChar_of_marker? h)), ofChars_marker h]

theorem ofChars_blanks (h : ∀ c ∈ ds, isBlank c = true) : ofChars (ds ++ cs) = ofChars cs := by
  induction ds with
  | nil => rfl
  | cons d ds ih =>
    rw [List.cons_append, ofChars_blank (h d List.mem_cons_self)]
    exact ih fun c hc => h c (List.mem_cons_of_mem d hc)

theorem ofChars_append_blanks (h : ∀ c ∈ ds, isBlank c = true) :
    ofChars (cs ++ ds) = ofChars cs := by
  cases ds with
  | nil => rw [List.append_nil]
  | cons d ds =>
    have hds : ofChars (ds ++ []) = ofChars [] :=
      ofChars_blanks fun c hc => h c (List.mem_cons_of_mem d hc)
    rw [List.append_nil] at hds
    rw [ofChars_append_blank (h d List.mem_cons_self), hds]
    exact List.append_nil _

/-- **Outer blanks do not count.** -/
theorem ofChars_trim (s : String) : ofChars (trim s).toList = ofChars s.toList := by
  have hstart : ofChars (trimStart s.toList) = ofChars s.toList := by
    have h := List.takeWhile_append_dropWhile (p := isBlank) (l := s.toList)
    conv_rhs => rw [← h]
    exact (ofChars_blanks fun c hc => List.mem_takeWhile_imp hc).symm
  have hend (cs : List Char) : ofChars (trimEnd cs) = ofChars cs := by
    have h := List.rdropWhile_append_rtakeWhile (p := isBlank) (l := cs)
    conv_rhs => rw [← h]
    exact (ofChars_append_blanks fun c hc => List.mem_rtakeWhile_imp hc).symm
  rw [trim, String.toList_ofList, hend, hstart]

/-! ## Words -/

theorem isArgspec_ofList (hne : w ≠ []) (h : ∀ c ∈ w, isWordChar c = true) :
    IsArgspec (String.ofList w) := by
  refine ⟨fun he => hne ?_, fun c hc => ?_⟩
  · rw [← String.toList_ofList (l := w), he]
    rfl
  · rw [String.toList_ofList] at hc
    exact isWordChar_iff.mp (h c hc)

theorem ofChars_word {s : String} (h : IsArgspec s) : ofChars s.toList = [word s] := by
  have hne : s.toList ≠ [] := fun he => h.1 (String.toList_inj.mp he)
  have hscan : scan [] (s.toList ++ []) = scan ([] ++ s.toList) [] :=
    scan_wordChars fun c hc => isWordChar_iff.mpr (h.2 c hc)
  rw [List.append_nil, List.nil_append] at hscan
  rw [ofChars, hscan, scan, flush, if_neg (mt List.isEmpty_iff.mp hne), String.ofList_toList]

theorem isArgspec_of_mem_flush {text : String} (hw : ∀ c ∈ w, isWordChar c = true)
    (h : word text ∈ flush w) : IsArgspec text := by
  unfold flush at h
  split_ifs at h with hempty
  · exact absurd h List.not_mem_nil
  · cases List.mem_singleton.mp h
    exact isArgspec_ofList (mt List.isEmpty_iff.mpr hempty) hw

theorem isArgspec_of_mem_scan {text : String} (hw : ∀ c ∈ w, isWordChar c = true)
    (h : word text ∈ scan w cs) : IsArgspec text := by
  induction cs generalizing w with
  | nil => exact isArgspec_of_mem_flush hw h
  | cons c cs ih =>
    have hnil : ∀ c ∈ ([] : List Char), isWordChar c = true := fun _ hc => by cases hc
    cases hm : marker? c with
    | some m =>
      rw [scan_marker hm, List.mem_append, List.mem_cons] at h
      rcases h with h | h | h
      · exact isArgspec_of_mem_flush hw h
      · rw [← h] at hm
        unfold marker? at hm
        split at hm <;> cases hm
      · exact ih hnil h
    | none =>
      by_cases hb : isBlank c = true
      · rw [scan_blank hb, List.mem_append] at h
        rcases h with h | h
        · exact isArgspec_of_mem_flush hw h
        · exact ih hnil h
      · have hc : isWordChar c = true :=
          isWordChar_iff.mpr ⟨Bool.eq_false_iff.mpr hb, marker?_eq_none.mp hm⟩
        rw [scan_wordChar hc] at h
        refine ih (fun d hd => ?_) h
        rcases List.mem_append.mp hd with hd | hd
        · exact hw d hd
        · rw [List.mem_singleton.mp hd]
          exact hc

/-- **Every word is an argspec.** -/
theorem isArgspec_of_mem {text : String} (h : word text ∈ ofChars cs) : IsArgspec text :=
  isArgspec_of_mem_scan (fun _ hc => by cases hc) h

end Lexeme

/-! ## Specifications -/

variable {spec : String} {help : List String}

theorem compile_eq_ok {ts : List Token} :
    compile spec help = .ok ts ↔ Compile.ofLexemes help (Lexeme.ofChars spec.toList) = .ok ts := by
  rw [compile, Lexeme.ofChars_trim]
  cases Compile.ofLexemes help (Lexeme.ofChars spec.toList) <;> simp [Except.mapError]

theorem compile_eq_error {e : Error} :
    compile spec help = .error e ↔ ∃ d,
      Compile.ofLexemes help (Lexeme.ofChars spec.toList) = .error d ∧ d.toError (trim spec) = e := by
  rw [compile, Lexeme.ofChars_trim]
  cases Compile.ofLexemes help (Lexeme.ofChars spec.toList) <;> simp [Except.mapError]

end Console
