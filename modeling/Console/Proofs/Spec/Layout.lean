import Console.Proofs.Spec.Lexeme

/-!
# Layout has no meaning

What counts of a specification is its lexical stream: the markers, and the maximal runs of other
characters that are not blank. Where the blanks stand between these, and which ones, does not count.

* `Lexeme.Stream`: the lexical stream of a text;
* `Stream.flush_append`: a run, if there is one, stands in front of the stream of what follows it;
* **`stream_iff`**: a text has one lexical stream, the lexemes that are read;
* **`compile_layout`**: specifications with the same stream are compiled to the same tokens, or have
  the same defect.
-/

namespace Console

open Text

namespace Lexeme

variable {w cs : List Char} {ls : List Lexeme}

/-- The lexical stream of a text. Blanks are dropped; every marker is one lexeme, and so is every
run of other characters that reaches up to a blank, a marker or the end. -/
inductive Stream : List Char → List Lexeme → Prop where
  | nil : Stream [] []
  | blank {c : Char} {cs : List Char} {ls : List Lexeme} (isBlank : isBlank c = true)
    (rest : Stream cs ls) : Stream (c :: cs) ls
  | marker {c : Char} {cs : List Char} {m : Lexeme} {ls : List Lexeme} (isMarker : marker? c = some m)
    (rest : Stream cs ls) : Stream (c :: cs) (m :: ls)
  | run {w cs : List Char} {ls : List Lexeme} (ne : w ≠ []) (inside : ∀ c ∈ w, isWordChar c = true)
    (ends : Breaks cs) (rest : Stream cs ls) : Stream (w ++ cs) (word (String.ofList w) :: ls)

theorem ofChars_run (hne : w ≠ []) (h : ∀ c ∈ w, isWordChar c = true) :
    ofChars w = [word (String.ofList w)] := by
  have hword := ofChars_word (isArgspec_ofList hne h)
  rwa [String.toList_ofList] at hword

theorem Stream.ofChars_eq (h : Stream cs ls) : ofChars cs = ls := by
  induction h with
  | nil => rfl
  | blank isBlank rest ih => rw [ofChars_blank isBlank, ih]
  | marker isMarker rest ih => rw [ofChars_marker isMarker, ih]
  | run ne inside ends rest ih =>
    rw [ofChars_append ends, ofChars_run ne inside, ih, List.singleton_append]

theorem Stream.flush_append (hw : ∀ c ∈ w, isWordChar c = true) (ends : Breaks cs)
    (h : Stream cs ls) : Stream (w ++ cs) (flush w ++ ls) := by
  by_cases hne : w = []
  · subst hne
    exact h
  · rw [flush, if_neg (mt List.isEmpty_iff.mp hne)]
    exact .run hne hw ends h

/-- Reading finds the stream: `w` is the part of a run that has been read. -/
theorem stream_scan (hw : ∀ c ∈ w, isWordChar c = true) : Stream (w ++ cs) (scan w cs) := by
  induction cs generalizing w with
  | nil =>
    rw [scan, ← List.append_nil (flush w)]
    exact Stream.nil.flush_append hw fun c hc => by cases hc
  | cons c cs ih =>
    have hrest : Stream cs (scan [] cs) := ih (w := []) fun d hd => by cases hd
    cases hm : marker? c with
    | some m =>
      rw [scan_marker hm]
      exact (hrest.marker hm).flush_append hw (breaks_cons (isWordChar_of_marker? hm))
    | none =>
      by_cases hb : isBlank c = true
      · rw [scan_blank hb]
        exact (hrest.blank hb).flush_append hw (breaks_cons (isWordChar_of_isBlank hb))
      · have hc : isWordChar c = true :=
          isWordChar_iff.mpr ⟨Bool.eq_false_iff.mpr hb, marker?_eq_none.mp hm⟩
        rw [scan_wordChar hc, List.append_cons]
        refine ih fun d hd => ?_
        rcases List.mem_append.mp hd with hd | hd
        · exact hw d hd
        · exact List.mem_singleton.mp hd ▸ hc

/-- **A text has one lexical stream**, the lexemes that are read. -/
theorem stream_iff : Stream cs ls ↔ ofChars cs = ls := by
  refine ⟨Stream.ofChars_eq, ?_⟩
  rintro rfl
  exact stream_scan (w := []) fun c hc => by cases hc

end Lexeme

open Lexeme

variable {spec : String} {ls : List Lexeme}

theorem compile_of_stream (h : Stream spec.toList ls) (help : List String) :
    compile spec help = (Compile.ofLexemes help ls).mapError (Compile.Defect.toError (trim spec)) := by
  rw [compile, ofChars_trim, h.ofChars_eq]

/-- **Layout has no meaning.** Let two specifications have the same lexical stream. With the same help
texts they have the same tokens, or both are unbalanced, or both have a permutation with the same
number of branches, which are too many. An error names the specification that it is about. -/
theorem compile_layout {spec spec' : String} {ls : List Lexeme} (h : Stream spec.toList ls)
    (h' : Stream spec'.toList ls) (help : List String) :
    (∃ ts, compile spec help = .ok ts ∧ compile spec' help = .ok ts) ∨
      (compile spec help = .error (.unbalanced (trim spec)) ∧
        compile spec' help = .error (.unbalanced (trim spec'))) ∨
      ∃ n, compile spec help = .error (.tooManyBranches (trim spec) n 6) ∧
        compile spec' help = .error (.tooManyBranches (trim spec') n 6) := by
  rw [compile_of_stream h, compile_of_stream h']
  cases Compile.ofLexemes help ls with
  | ok ts => exact .inl ⟨ts, rfl, rfl⟩
  | error d =>
    cases d with
    | unbalanced => exact .inr (.inl ⟨rfl, rfl⟩)
    | tooManyBranches n => exact .inr (.inr ⟨n, rfl, rfl⟩)

/-- Blanks around markers, one of them an ideographic space, or none at all. -/
theorem compile_layout_foo :
    let dense := "foo(bar|\x7bbaz .WORD\x7d)"
    let loose := "\tfoo ( bar |\u3000\x7b baz\n\n.WORD \x7d ) "
    ∃ ls ts, Stream dense.toList ls ∧ Stream loose.toList ls ∧
      compile dense ["a", "b"] = .ok ts ∧ compile loose ["a", "b"] = .ok ts := by
  intro dense loose
  have h : Stream dense.toList (ofChars dense.toList) := stream_iff.mpr rfl
  have h' : Stream loose.toList (ofChars dense.toList) := stream_iff.mpr (by decide +kernel)
  have hnests : (compile dense ["a", "b"]).toOption.isSome = true := by decide +kernel
  rcases compile_layout h h' ["a", "b"] with ⟨ts, hdense, hloose⟩ | ⟨hdense, -⟩ | ⟨n, hdense, -⟩
  · exact ⟨_, ts, h, h', hdense, hloose⟩
  · rw [hdense] at hnests
    cases hnests
  · rw [hdense] at hnests
    cases hnests

end Console
