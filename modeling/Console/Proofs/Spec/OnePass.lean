import Console.Proofs.Spec.Lexeme

/-!
# Compiling in one pass

A specification can be compiled character by character, with no lexemes between. What has been read
of a word is pending until a blank, a marker or the end of the specification makes an element of it,
and a marker then opens, divides or closes a group.

* `Scanner`: what has been read; `Scanner.consume`: the pending word becomes an element;
  `Scanner.read`: what one character does;
* `compileInOnePass`: the tokens of a specification;
* `read_marker`, **`foldlM_read`**: the characters do what their lexemes do;
* **`compileInOnePass_eq_compile`**: this compiles as reading the lexemes does.
-/

namespace Console

open Text

namespace Compile

/-- What has been read of a specification, the last word of it perhaps in part. -/
structure Scanner where
  /-- Help texts not handed out yet. -/
  help : List String
  /-- The tokens outside all open groups. -/
  elements : List Token
  /-- The open groups, the innermost first. -/
  groups : List OpenGroup
  /-- The characters of the word being read. -/
  pending : List Char

namespace Scanner

/-- Adds a token to the innermost open branch. -/
def push (t : Token) (s : Scanner) : Scanner :=
  match s.groups with
  | [] => { s with elements := s.elements ++ [t] }
  | g :: gs => { s with groups := { g with current := g.current ++ [t] } :: gs }

/-- Makes an element of the pending characters, if there are some. -/
def consume (s : Scanner) : Scanner :=
  if s.pending.isEmpty then s
  else
    let e := Element.ofArgspec (String.ofList s.pending) (s.help.head?.getD "") !s.groups.isEmpty
    { s with pending := [], help := s.help.tail }.push (.element e)

/-- Opens a group. -/
def openGroup (kind : GroupKind) (s : Scanner) : Scanner :=
  let s := s.consume
  { s with groups := ⟨kind, [], []⟩ :: s.groups }

/-- Closes a group. -/
def closeGroup (kind : GroupKind) (s : Scanner) : Except Defect Scanner :=
  let s := s.consume
  match s.groups with
  | [] => .error .unbalanced
  | g :: gs =>
    if g.kind = kind then
      let branches := g.branches ++ [g.current]
      if g.kind = .permutation ∧ branchLimit < branches.length then
        .error (.tooManyBranches branches.length)
      else .ok ({ s with groups := gs }.push (.group kind branches))
    else .error .unbalanced

/-- Begins the next branch of a group. -/
def nextBranch (s : Scanner) : Except Defect Scanner :=
  let s := s.consume
  match s.groups with
  | [] => .error .unbalanced
  | g :: gs =>
    .ok { s with groups := { g with branches := g.branches ++ [g.current], current := [] } :: gs }

/-- Reads one character. -/
def read (s : Scanner) (c : Char) : Except Defect Scanner :=
  match c with
  | '(' => .ok (s.openGroup .alternation)
  | '{' => .ok (s.openGroup .permutation)
  | ')' => s.closeGroup .alternation
  | '}' => s.closeGroup .permutation
  | '|' => s.nextBranch
  | c => if isBlank c then .ok s.consume else .ok { s with pending := s.pending ++ [c] }

/-- The tokens of what has been read to its end. -/
def finish (s : Scanner) : Except Defect (List Token) :=
  let s := s.consume
  if s.groups.isEmpty then .ok s.elements else .error .unbalanced

end Scanner

end Compile

/-- The tokens of a specification, compiled in one pass. -/
def compileInOnePass (spec : String) (help : List String) : Except Error (List Token) :=
  let spec := trim spec
  (do
    let s ← spec.toList.foldlM Compile.Scanner.read ⟨help, [], [], []⟩
    s.finish).mapError (Compile.Defect.toError spec)

namespace Compile.Scanner

variable {s : Scanner}

/-- What has been read, without the pending word. -/
def state (s : Scanner) : State := ⟨s.help, s.elements, s.groups⟩

/-- The scanner that has just read this, with nothing pending. -/
def ofState (s : State) : Scanner := ⟨s.help, s.outer, s.groups, []⟩

theorem state_push (t : Token) (s : Scanner) : (s.push t).state = s.state.push t := by
  obtain ⟨help, elements, groups, pending⟩ := s
  cases groups <;> rfl

theorem pending_consume (s : Scanner) : s.consume.pending = [] := by
  unfold consume
  split
  · exact List.isEmpty_iff.mp ‹_›
  · unfold push
    split <;> rfl

theorem foldlM_flush (s : Scanner) :
    (Lexeme.flush s.pending).foldlM step s.state = .ok s.consume.state := by
  unfold Lexeme.flush consume
  split
  · rfl
  · rw [state_push]
    rfl

/-! ## Markers -/

theorem openGroup_eq (kind : GroupKind) (s : Scanner) :
    .ok (s.openGroup kind) = (step s.consume.state (.opens kind)).map ofState := by
  have hpending := s.pending_consume
  unfold openGroup
  generalize s.consume = c at hpending ⊢
  obtain ⟨help, elements, groups, pending⟩ := c
  cases hpending
  rfl

theorem closeGroup_eq (kind : GroupKind) (s : Scanner) :
    s.closeGroup kind = (step s.consume.state (.closes kind)).map ofState := by
  have hpending := s.pending_consume
  unfold closeGroup
  generalize s.consume = c at hpending ⊢
  obtain ⟨help, elements, groups, pending⟩ := c
  cases hpending
  cases groups with
  | nil => rfl
  | cons g gs =>
    simp only [state, step]
    by_cases hkind : g.kind = kind
    · rw [if_pos hkind, if_pos hkind, hkind]
      split_ifs
      · rfl
      · cases gs <;> rfl
    · rw [if_neg hkind, if_neg hkind]
      rfl

theorem nextBranch_eq (s : Scanner) :
    s.nextBranch = (step s.consume.state .bar).map ofState := by
  have hpending := s.pending_consume
  unfold nextBranch
  generalize s.consume = c at hpending ⊢
  obtain ⟨help, elements, groups, pending⟩ := c
  cases hpending
  cases groups <;> rfl

/-- A marker makes an element of the pending word, and then does what its lexeme does. -/
theorem read_marker {c : Char} {m : Lexeme} (h : Lexeme.marker? c = some m) (s : Scanner) :
    s.read c = (step s.consume.state m).map ofState := by
  unfold Lexeme.marker? at h
  split at h
  · cases h
    exact openGroup_eq _ s
  · cases h
    exact openGroup_eq _ s
  · cases h
    exact closeGroup_eq _ s
  · cases h
    exact closeGroup_eq _ s
  · cases h
    exact nextBranch_eq s
  · cases h

theorem read_of_not_marker {c : Char} (h : Lexeme.marker? c = none) (s : Scanner) :
    s.read c =
      if isBlank c then .ok s.consume else .ok { s with pending := s.pending ++ [c] } := by
  unfold read
  split
  · cases h
  · cases h
  · cases h
  · cases h
  · cases h
  · rfl

/-! ## Specifications -/

/-- **From any place on, the characters do what their lexemes do.** -/
theorem foldlM_read (cs : List Char) (s : Scanner) :
    cs.foldlM read s >>= finish =
      (Lexeme.scan s.pending cs).foldlM step s.state >>= Compile.finish := by
  induction cs generalizing s with
  | nil =>
    rw [Lexeme.scan, foldlM_flush]
    rfl
  | cons c cs ih =>
    rw [List.foldlM_cons]
    cases hm : Lexeme.marker? c with
    | some m =>
      rw [read_marker hm, Lexeme.scan_marker hm, List.foldlM_append, foldlM_flush]
      change _ = (step s.consume.state m >>= fun t => (Lexeme.scan [] cs).foldlM step t) >>= _
      cases step s.consume.state m with
      | error d => rfl
      | ok t => exact ih (ofState t)
    | none =>
      rw [read_of_not_marker hm]
      by_cases hb : isBlank c = true
      · rw [if_pos hb, Lexeme.scan_blank hb, List.foldlM_append, foldlM_flush]
        have hrest := ih s.consume
        rw [pending_consume] at hrest
        exact hrest
      · have hword : Lexeme.isWordChar c = true :=
          Lexeme.isWordChar_iff.mpr ⟨Bool.eq_false_iff.mpr hb, Lexeme.marker?_eq_none.mp hm⟩
        rw [if_neg hb, Lexeme.scan_wordChar hword]
        exact ih { s with pending := s.pending ++ [c] }

end Compile.Scanner

/-- **Compiling in one pass is compiling.** The tokens are the same, and so is the error of a
specification that has none. -/
theorem compileInOnePass_eq_compile (spec : String) (help : List String) :
    compileInOnePass spec help = compile spec help :=
  congrArg (·.mapError (Compile.Defect.toError (trim spec)))
    (Compile.Scanner.foldlM_read (trim spec).toList ⟨help, [], [], []⟩)

end Console
