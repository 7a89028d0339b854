import Console.Proofs.Spec.Layout
import Console.Proofs.Spec.Nesting
import Console.Proofs.Spec.RoundTrip

/-!
# The elements of a specification

Reading hands out one element for each run of characters, in the order of the runs, with the next
help text and with a mark if a group is open.

* `Lexeme.runs`, `Lexeme.IsRun`: the maximal runs of a text, and the places where they stand;
* `Lexeme.InsideGroup`: a place behind which a group is still open;
* **`Stream.exists_isRun`**: each run stands somewhere, and the stream of the text before it is a
  beginning of the stream of the whole text;
* `Compile.State.elements`, **`elements_step`**, `elements_foldlM`: the elements that have been read;
* **`elements_of_compile`**: the elements of a compiled specification.
-/

namespace Console

open Text Token

namespace Lexeme

variable {c : Char} {w cs ds : List Char} {ls : List Lexeme}

/-! ## Runs of a text -/

/-- The argspec that a lexeme is, if it is one. -/
def argspec? : Lexeme → Option String
  | word text => some text
  | _ => none

/-- The maximal runs of characters that are neither blank nor markers, in order. -/
def runs (cs : List Char) : List String :=
  ((cs.splitOnP fun c => !isWordChar c).filter fun run => !run.isEmpty).map String.ofList

/-- In the text `before ++ w ++ after`, the part `w` is a run of characters that are neither blank nor
markers, and goes as far as it can on both sides. -/
structure IsRun (before w after : List Char) : Prop where
  ne : w ≠ []
  inside : ∀ c ∈ w, isWordChar c = true
  begins : ∀ c ∈ before.getLast?, isWordChar c = false
  ends : Breaks after

/-- Behind this text some group is open. -/
def InsideGroup (before : List Char) : Prop := ∃ g gs, LeavesOpen (g :: gs) (markers before)

theorem runs_append_cons (hc : isWordChar c = false) (cs ds : List Char) :
    runs (cs ++ c :: ds) = runs cs ++ runs ds := by
  have hsep : (!isWordChar c) = true := by rw [hc, Bool.not_false]
  rw [runs, List.splitOnP_append_cons cs ds hsep, List.filter_append, List.map_append]
  rfl

theorem runs_cons (hc : isWordChar c = false) (cs : List Char) : runs (c :: cs) = runs cs :=
  runs_append_cons hc [] cs

theorem runs_run (hne : w ≠ []) (h : ∀ c ∈ w, isWordChar c = true) :
    runs w = [String.ofList w] := by
  have hsplit : w.splitOnP (fun c => !isWordChar c) = [w] :=
    List.splitOnP_eq_singleton fun c hc => by rw [h c hc, Bool.not_true]
  have hkept : [w].filter (fun run => !run.isEmpty) = [w] :=
    List.filter_eq_self.mpr fun v hv => by simp [List.mem_singleton.mp hv, hne]
  rw [runs, hsplit, hkept]
  rfl

theorem runs_append_run (hne : w ≠ []) (h : ∀ c ∈ w, isWordChar c = true) (ends : Breaks cs) :
    runs (w ++ cs) = String.ofList w :: runs cs := by
  cases cs with
  | nil => rw [List.append_nil, runs_run hne h]; rfl
  | cons d ds =>
    have hd : isWordChar d = false := ends d rfl
    rw [runs_append_cons hd, runs_run hne h, runs_cons hd, List.singleton_append]

theorem argspec?_of_marker? {m : Lexeme} (h : marker? c = some m) : m.argspec? = none := by
  unfold marker? at h
  split at h <;> cases h <;> rfl

theorem Stream.runs_eq (h : Stream cs ls) : runs cs = ls.filterMap argspec? := by
  induction h with
  | nil => rfl
  | blank isBlank rest ih => rw [runs_cons (isWordChar_of_isBlank isBlank), ih]
  | marker isMarker rest ih =>
    rw [runs_cons (isWordChar_of_marker? isMarker), ih,
      List.filterMap_cons_none (argspec?_of_marker? isMarker)]
  | run ne inside ends rest ih =>
    rw [runs_append_run ne inside ends, ih]
    rfl

theorem IsRun.cons {before after : List Char} (hc : isWordChar c = false)
    (h : IsRun before w after) : IsRun (c :: before) w after where
  ne := h.ne
  inside := h.inside
  begins d hd := by
    rw [List.getLast?_cons, Option.mem_some_iff] at hd
    cases hlast : before.getLast? with
    | none =>
      rw [hlast, Option.getD_none] at hd
      exact hd ▸ hc
    | some e =>
      rw [hlast, Option.getD_some] at hd
      exact hd ▸ h.begins e hlast
  ends := h.ends

theorem IsRun.before_ne_nil {before after : List Char} (h : IsRun before w after)
    (ends : Breaks (before ++ w ++ after)) : before ≠ [] := by
  rintro rfl
  obtain ⟨d, ds, rfl⟩ := List.exists_cons_of_ne_nil h.ne
  have hd := h.inside d List.mem_cons_self
  rw [ends d rfl] at hd
  cases hd

/-- **Each run stands somewhere,** behind as many runs as come before it. The stream of the text
before it is what comes before it in the stream of the whole text. -/
theorem Stream.exists_isRun (h : Stream cs ls) {i : ℕ} {text : String}
    (hi : (runs cs)[i]? = some text) : ∃ before after ls₁ ls₂,
      cs = before ++ text.toList ++ after ∧ IsRun before text.toList after ∧
      (runs before).length = i ∧ Stream before ls₁ ∧ ls = ls₁ ++ word text :: ls₂ := by
  induction h generalizing i with
  | nil => cases hi
  | @blank c cs ls isBlank rest ih =>
    have hc := isWordChar_of_isBlank isBlank
    rw [runs_cons hc] at hi
    obtain ⟨before, after, ls₁, ls₂, rfl, hrun, rfl, hbefore, rfl⟩ := ih hi
    exact ⟨c :: before, after, ls₁, ls₂, rfl, hrun.cons hc, by rw [runs_cons hc],
      hbefore.blank isBlank, rfl⟩
  | @marker c cs m ls isMarker rest ih =>
    have hc := isWordChar_of_marker? isMarker
    rw [runs_cons hc] at hi
    obtain ⟨before, after, ls₁, ls₂, rfl, hrun, rfl, hbefore, rfl⟩ := ih hi
    exact ⟨c :: before, after, m :: ls₁, ls₂, rfl, hrun.cons hc, by rw [runs_cons hc],
      hbefore.marker isMarker, rfl⟩
  | @run w cs ls ne inside ends rest ih =>
    rw [runs_append_run ne inside ends] at hi
    cases i with
    | zero =>
      obtain rfl : String.ofList w = text := Option.some.inj hi
      refine ⟨[], cs, [], ls, by rw [String.toList_ofList]; rfl, ?_, rfl, .nil, rfl⟩
      rw [String.toList_ofList]
      exact ⟨ne, inside, nofun, ends⟩
    | succ i =>
      obtain ⟨before, after, ls₁, ls₂, rfl, hrun, rfl, hbefore, rfl⟩ := ih hi
      obtain ⟨d, ds, rfl⟩ := List.exists_cons_of_ne_nil (hrun.before_ne_nil ends)
      have hbreaks : Breaks (d :: ds) := breaks_cons (ends d rfl)
      refine ⟨w ++ d :: ds, after, _, ls₂, by simp, ⟨hrun.ne, hrun.inside, ?_, hrun.ends⟩, ?_,
        hbefore.run ne inside hbreaks, rfl⟩
      · rw [List.getLast?_append_of_ne_nil _ (List.cons_ne_nil d ds)]
        exact hrun.begins
      · rw [runs_append_run ne inside hbreaks, List.length_cons]

end Lexeme

open Lexeme

/-! ## Elements that have been read -/

namespace Token

theorem seqElements_append (ts us : List Token) :
    seqElements (ts ++ us) = seqElements ts ++ seqElements us := by
  induction ts with
  | nil => rfl
  | cons t ts ih => rw [List.cons_append, seqElements, seqElements, ih, List.append_assoc]

theorem branchElements_append (bs cs : List (List Token)) :
    branchElements (bs ++ cs) = branchElements bs ++ branchElements cs := by
  induction bs with
  | nil => rfl
  | cons b bs ih => rw [List.cons_append, branchElements, branchElements, ih, List.append_assoc]

theorem branchElements_singleton (b : List Token) : branchElements [b] = seqElements b :=
  List.append_nil _

end Token

namespace Compile

variable {s s' : State} {l : Lexeme} {ls : List Lexeme}

/-- The elements of what has been read of a group. -/
def OpenGroup.elements (g : OpenGroup) : List Element :=
  branchElements g.branches ++ seqElements g.current

/-- The elements that have been read, from left to right. -/
def State.elements (s : State) : List Element :=
  seqElements s.outer ++ (s.groups.reverse.map OpenGroup.elements).flatten

/-- The element that a lexeme is, with the next help text. -/
def State.elementOf (s : State) (l : Lexeme) : Option Element :=
  l.argspec?.map fun text => .ofArgspec text (s.help.head?.getD "") !s.groups.isEmpty

theorem elements_push (t : Token) (s : State) :
    (s.push t).elements = s.elements ++ t.elements := by
  have ht : seqElements [t] = t.elements := List.append_nil _
  obtain ⟨help, outer, groups⟩ := s
  cases groups with
  | nil => simp [State.push, State.elements, seqElements_append, ht]
  | cons g gs => simp [State.push, State.elements, OpenGroup.elements, seqElements_append, ht]

/-- **A lexeme adds its element,** and uses up a help text. -/
theorem elements_step (h : step s l = .ok s') :
    s'.elements = s.elements ++ (s.elementOf l).toList ∧
      s'.help = s.help.drop (s.elementOf l).toList.length := by
  obtain ⟨help, outer, groups⟩ := s
  cases l with
  | word text =>
    cases h
    rw [elements_push, help_push]
    exact ⟨rfl, List.drop_one.symm⟩
  | opens kind =>
    cases h
    simp [State.elements, OpenGroup.elements, State.elementOf, argspec?, branchElements, seqElements]
  | closes kind =>
    cases groups with
    | nil => cases h
    | cons g gs =>
      unfold step at h
      simp only at h
      split_ifs at h with hkind hlimit
      cases h
      rw [elements_push, help_push]
      simp [State.elements, OpenGroup.elements, State.elementOf, argspec?, elements,
        branchElements_append, branchElements_singleton]
  | bar =>
    cases groups with
    | nil => cases h
    | cons g gs =>
      cases h
      simp [State.elements, OpenGroup.elements, State.elementOf, argspec?,
        branchElements_append, branchElements_singleton, seqElements]

theorem elements_foldlM (h : ls.foldlM step s = .ok s') : ∃ es, s'.elements = s.elements ++ es ∧
    es.map Element.argspec = ls.filterMap argspec? ∧ s'.help = s.help.drop es.length := by
  induction ls generalizing s with
  | nil =>
    cases h
    exact ⟨[], (List.append_nil _).symm, rfl, rfl⟩
  | cons l ls ih =>
    rw [List.foldlM_cons] at h
    cases hstep : step s l with
    | error d =>
      rw [hstep] at h
      cases h
    | ok u =>
      rw [hstep] at h
      obtain ⟨helements, hhelp⟩ := elements_step hstep
      obtain ⟨es, hes, hargspecs, hrest⟩ := ih h
      refine ⟨(s.elementOf l).toList ++ es, ?_, ?_, ?_⟩
      · rw [hes, helements, List.append_assoc]
      · rw [List.map_append, hargspecs, State.elementOf, List.filterMap_cons]
        cases l.argspec? <;> rfl
      · rw [hrest, hhelp, List.drop_drop, List.length_append]

/-- The element of a run that stands behind `ls` in a stream: it has the first help text that the
runs in `ls` leave, and is marked if a group is open behind `ls`. -/
theorem exists_getElem?_elements {ls ls' : List Lexeme} {text : String}
    (h : (ls ++ .word text :: ls').foldlM step s = .ok s') (hs : s.elements = []) :
    ∃ u, ls.foldlM step s = .ok u ∧
      s'.elements[(ls.filterMap argspec?).length]? = some (.ofArgspec text
        (s.help[(ls.filterMap argspec?).length]?.getD "") !u.groups.isEmpty) := by
  rw [List.foldlM_append] at h
  cases hu : ls.foldlM step s with
  | error d =>
    rw [hu] at h
    cases h
  | ok u =>
    rw [hu] at h
    obtain ⟨es, hes, hargspecs, hhelp⟩ := elements_foldlM hu
    have hlength : (ls.filterMap argspec?).length = es.length := by
      rw [← hargspecs, List.length_map]
    cases hv : step u (.word text) with
    | error d => cases hv
    | ok v =>
      simp only [bind, Except.bind, List.foldlM_cons, hv] at h
      obtain ⟨es', hes', -, -⟩ := elements_foldlM h
      refine ⟨u, rfl, ?_⟩
      have hhead : u.help.head?.getD "" = s.help[es.length]?.getD "" := by
        rw [hhelp, List.head?_drop]
      rw [hes', (elements_step hv).1, hes, hs, List.nil_append, hlength, List.append_assoc,
        List.getElem?_append_right (Nat.le_refl _), Nat.sub_self, ← hhead]
      rfl

theorem exists_foldlM_of_compile {spec : String} {help : List String} {ts : List Token}
    (h : compile spec help = .ok ts) :
    ∃ s, (ofChars spec.toList).foldlM step ⟨help, [], []⟩ = .ok s ∧ s.elements = seqElements ts := by
  have hread := compile_eq_ok.mp h
  rw [ofLexemes] at hread
  cases hfold : (ofChars spec.toList).foldlM step ⟨help, [], []⟩ with
  | error d =>
    rw [hfold] at hread
    cases hread
  | ok s =>
    rw [hfold] at hread
    obtain ⟨help', outer, groups⟩ := s
    cases groups with
    | nil =>
      cases hread
      exact ⟨_, rfl, List.append_nil _⟩
    | cons g gs => cases hread

theorem insideGroup_iff {help : List String} {before : List Char}
    (h : (ofChars before).foldlM step ⟨help, [], []⟩ = .ok s) :
    InsideGroup before ↔ s.groups ≠ [] := by
  have hshape := shape_foldlM_ofChars help before
  rw [h] at hshape
  have hopen {gs : List (GroupKind × ℕ)} : LeavesOpen gs (markers before) ↔ s.shape = gs := by
    rw [leavesOpen_iff (word_notMem_markers before), ← hshape]
    exact ⟨Except.ok.inj, congrArg Except.ok⟩
  simp only [InsideGroup, hopen, State.shape]
  cases s.groups <;> simp

end Compile

/-- **The elements of a specification.** Read from left to right, their argspecs are the maximal runs
of characters that are neither blank nor markers, in order. The one at place `i` has the help text at
this place as its description, or the empty text if there is none. Its run stands somewhere in the
specification behind `i` others, and it is an argument if and only if the run stands inside a group
there, or its keyword is a typed place. -/
theorem elements_of_compile {spec : String} {help : List String} {ts : List Token}
    (h : compile spec help = .ok ts) :
    (seqElements ts).map Element.argspec = runs spec.toList ∧
      ∀ i e, (seqElements ts)[i]? = some e → e.description = help[i]?.getD "" ∧
        ∃ before after, spec.toList = before ++ e.argspec.toList ++ after ∧
          IsRun before e.argspec.toList after ∧ (runs before).length = i ∧
          (e.isArgument = true ↔
            InsideGroup before ∨ (Converter.resolve (Element.keywordOf e.argspec)).isSome = true) := by
  have hstream : Stream spec.toList (ofChars spec.toList) := stream_iff.mpr rfl
  obtain ⟨s, hfold, helements⟩ := Compile.exists_foldlM_of_compile h
  have hargspecs : (seqElements ts).map Element.argspec = runs spec.toList := by
    obtain ⟨es, hes, hmap, -⟩ := Compile.elements_foldlM hfold
    rw [← helements, hes, hstream.runs_eq, ← hmap]
    rfl
  refine ⟨hargspecs, fun i e he => ?_⟩
  have hrun : (runs spec.toList)[i]? = some e.argspec := by
    rw [← hargspecs, List.getElem?_map, he]
    rfl
  obtain ⟨before, after, ls₁, ls₂, hspec, hplace, hlength, hbefore, hls⟩ := hstream.exists_isRun hrun
  rw [hls] at hfold
  obtain ⟨u, hu, hget⟩ := Compile.exists_getElem?_elements hfold rfl
  rw [← hbefore.runs_eq, hlength, helements, he, Option.some.injEq] at hget
  have hopen : InsideGroup before ↔ u.groups ≠ [] :=
    Compile.insideGroup_iff (by rwa [hbefore.ofChars_eq])
  refine ⟨congrArg Element.description hget, before, after, hspec, hplace, hlength, ?_⟩
  have hargument : e.isArgument =
      (!u.groups.isEmpty || (Converter.resolve (Element.keywordOf e.argspec)).isSome) :=
    congrArg Element.isArgument hget
  rw [hargument, hopen, Bool.or_eq_true, Bool.not_eq_true', List.isEmpty_eq_false_iff]

/-- Runs that touch markers. There is a help text for the first one only. `port` stands in a group;
`HOST` does not, but is a typed place. -/
theorem elements_of_compile_sshfs :
    let spec := " sshfs HOST(\x7bport <1-65535>|ro\x7d|)"
    compile spec ["Mount"] = .ok sshfs ∧
      (seqElements sshfs).map Element.argspec = ["sshfs", "HOST", "port", "<1-65535>", "ro"] ∧
      ∀ i e, (seqElements sshfs)[i]? = some e → e.description = ["Mount"][i]?.getD "" ∧
        ∃ before after, spec.toList = before ++ e.argspec.toList ++ after ∧
          IsRun before e.argspec.toList after ∧ (runs before).length = i ∧
          (e.isArgument = true ↔
            InsideGroup before ∨ (Converter.resolve (Element.keywordOf e.argspec)).isSome = true) := by
  intro spec
  have h : compile spec ["Mount"] = .ok sshfs := by decide +kernel
  have hruns : runs spec.toList = ["sshfs", "HOST", "port", "<1-65535>", "ro"] := by decide +kernel
  obtain ⟨hargspecs, heach⟩ := elements_of_compile h
  exact ⟨h, hargspecs.trans hruns, heach⟩

end Console
