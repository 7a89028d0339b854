import Console.Proofs.Spec.Lexeme
import Mathlib.Data.List.Induction

/-!
# The specifications that compile

Whether a specification compiles depends on its markers alone: they have to nest. The first marker
that is out of place decides the error.

* `Lexeme.markers`: the markers of a text;
* `Lexeme.Branches`, `Lexeme.Nests`: markers that nest;
* `Lexeme.LeavesOpen`: the beginnings of such, with the groups that are still open;
* `Lexeme.FirstFault`: what is out of place first, as an error;
* `Compile.nest`, `Compile.shape_step`: what reading a lexeme does to the open groups;
* **`leavesOpen_iff`**: the groups that are open after some markers, by the grammar and by reading;
* **`compile_iff_nests`**: which specifications compile, and the error of the others.
-/

namespace Console

open Text

namespace Lexeme

/-! ## Markers that nest -/

/-- The markers of a text, in order. -/
def markers (cs : List Char) : List Lexeme := cs.filterMap marker?

/-- The markers of `n` branches: groups that nest, with `n - 1` bars outside all of them. A
permutation has at most six branches. -/
inductive Branches : ℕ → List Lexeme → Prop where
  | nil : Branches 1 []
  | bar {n : ℕ} {ms : List Lexeme} (before : Branches n ms) : Branches (n + 1) (ms ++ [.bar])
  | group {n k : ℕ} {ms inner : List Lexeme} {kind : GroupKind} (before : Branches n ms)
    (inside : Branches k inner) (limit : kind = .permutation → k ≤ 6) :
    Branches n (ms ++ (.opens kind :: inner ++ [.closes kind]))

/-- Every group is closed by a marker of its kind, and bars stand only inside of groups. -/
def Nests (ms : List Lexeme) : Prop := Branches 1 ms

/-- Nothing is out of place in these markers, and they leave some groups open: here are their kinds
and the numbers of their branches so far, the innermost group first. -/
inductive LeavesOpen : List (GroupKind × ℕ) → List Lexeme → Prop where
  | outside {ms : List Lexeme} (nests : Nests ms) : LeavesOpen [] ms
  | inside {gs : List (GroupKind × ℕ)} {ms inner : List Lexeme} {n : ℕ} (before : LeavesOpen gs ms)
    (kind : GroupKind) (branches : Branches n inner) :
    LeavesOpen ((kind, n) :: gs) (ms ++ .opens kind :: inner)

/-- A marker that is out of place where some groups are open, and the error of the specification. -/
inductive Offends (spec : String) : List (GroupKind × ℕ) → Lexeme → Error → Prop where
  | unopened (kind : GroupKind) : Offends spec [] (.closes kind) (.unbalanced spec)
  | mismatched {kind other : GroupKind} {n : ℕ} {gs : List (GroupKind × ℕ)} (ne : kind ≠ other) :
    Offends spec ((kind, n) :: gs) (.closes other) (.unbalanced spec)
  | oversized {n : ℕ} {gs : List (GroupKind × ℕ)} (excess : 6 < n) :
    Offends spec ((.permutation, n) :: gs) (.closes .permutation) (.tooManyBranches spec n 6)
  | strayBar : Offends spec [] .bar (.unbalanced spec)

/-- The error of the first marker out of place, or of a group that is open at the end. -/
inductive FirstFault (spec : String) : List Lexeme → Error → Prop where
  | marker {gs : List (GroupKind × ℕ)} {before after : List Lexeme} {m : Lexeme} {e : Error}
    (inPlace : LeavesOpen gs before) (offends : Offends spec gs m e) :
    FirstFault spec (before ++ m :: after) e
  | unclosed {g : GroupKind × ℕ} {gs : List (GroupKind × ℕ)} {ms : List Lexeme}
    (inPlace : LeavesOpen (g :: gs) ms) : FirstFault spec ms (.unbalanced spec)

theorem Branches.pos {n : ℕ} {ms : List Lexeme} (h : Branches n ms) : 0 < n := by
  induction h with
  | nil => exact Nat.one_pos
  | bar _ ih => omega
  | group _ _ _ ih _ => exact ih

theorem LeavesOpen.group {gs : List (GroupKind × ℕ)} {ms inner : List Lexeme} {kind : GroupKind}
    {k : ℕ} (h : LeavesOpen gs ms) (inside : Branches k inner)
    (limit : kind = .permutation → k ≤ 6) :
    LeavesOpen gs (ms ++ (.opens kind :: inner ++ [.closes kind])) := by
  cases h with
  | outside nests => exact .outside (Branches.group nests inside limit)
  | inside before kind' branches =>
    have := LeavesOpen.inside before kind' (branches.group inside limit)
    simpa using this

end Lexeme

open Lexeme

namespace Compile

variable {gs gs' : List (GroupKind × ℕ)} {ms : List Lexeme} {m : Lexeme}

/-! ## Reading markers -/

/-- What a lexeme does to the open groups, each with the number of its branches so far. -/
def nest : List (GroupKind × ℕ) → Lexeme → Except Defect (List (GroupKind × ℕ))
  | gs, .word _ => .ok gs
  | gs, .opens kind => .ok ((kind, 1) :: gs)
  | [], .closes _ => .error .unbalanced
  | (kind, n) :: gs, .closes other =>
    if kind = other then
      if other = .permutation ∧ branchLimit < n then .error (.tooManyBranches n) else .ok gs
    else .error .unbalanced
  | [], .bar => .error .unbalanced
  | (kind, n) :: gs, .bar => .ok ((kind, n + 1) :: gs)

/-- The open groups of a state, each with the number of its branches so far. -/
def State.shape (s : State) : List (GroupKind × ℕ) :=
  s.groups.map fun g => (g.kind, g.branches.length + 1)

theorem shape_push (t : Token) (s : State) : (s.push t).shape = s.shape := by
  obtain ⟨help, outer, groups⟩ := s
  cases groups <;> rfl

/-- **Of a state, only its open groups decide what goes wrong next.** -/
theorem shape_step (s : State) (l : Lexeme) : (step s l).map State.shape = nest s.shape l := by
  obtain ⟨help, outer, groups⟩ := s
  cases l with
  | word text => simp only [step, Except.map, nest, shape_push]; rfl
  | opens kind => rfl
  | closes kind =>
    cases groups with
    | nil => rfl
    | cons g gs =>
      simp only [step, State.shape, List.map_cons, nest, List.length_append, List.length_singleton]
      by_cases hkind : g.kind = kind
      · rw [if_pos hkind, if_pos hkind]
        by_cases hlimit : kind = .permutation ∧ branchLimit < g.branches.length + 1
        · rw [if_pos hlimit, if_pos hlimit]
          rfl
        · rw [if_neg hlimit, if_neg hlimit]
          simp only [Except.map, shape_push]
          rfl
      · rw [if_neg hkind, if_neg hkind]
        rfl
  | bar =>
    cases groups with
    | nil => rfl
    | cons g gs => simp [step, Except.map, State.shape, nest]

theorem shape_foldlM (ls : List Lexeme) (s : State) :
    (ls.foldlM step s).map State.shape = ls.foldlM nest s.shape := by
  induction ls generalizing s with
  | nil => rfl
  | cons l ls ih =>
    have hl := shape_step s l
    rw [List.foldlM_cons, List.foldlM_cons, ← hl]
    cases step s l with
    | error d => rfl
    | ok s' => exact ih s'

theorem foldlM_nest_flush (w : List Char) (gs : List (GroupKind × ℕ)) :
    (flush w).foldlM nest gs = .ok gs := by
  unfold flush
  split_ifs <;> rfl

theorem foldlM_nest_scan (w cs : List Char) (gs : List (GroupKind × ℕ)) :
    (scan w cs).foldlM nest gs = (markers cs).foldlM nest gs := by
  induction cs generalizing w gs with
  | nil => exact foldlM_nest_flush w gs
  | cons c cs ih =>
    cases hm : marker? c with
    | some m =>
      have hmarkers : markers (c :: cs) = m :: markers cs := List.filterMap_cons_some hm
      rw [scan_marker hm, hmarkers, List.foldlM_append, foldlM_nest_flush]
      simp only [bind, Except.bind, List.foldlM_cons]
      cases nest gs m with
      | error d => rfl
      | ok gs' => exact ih [] gs'
    | none =>
      have hmarkers : markers (c :: cs) = markers cs := List.filterMap_cons_none hm
      rw [hmarkers]
      by_cases hb : isBlank c = true
      · rw [scan_blank hb, List.foldlM_append, foldlM_nest_flush]
        exact ih [] gs
      · have hw : isWordChar c = true := by simp [isWordChar, hm, hb]
        rw [scan_wordChar hw]
        exact ih _ gs

theorem shape_foldlM_ofChars (help : List String) (cs : List Char) :
    ((ofChars cs).foldlM step ⟨help, [], []⟩).map State.shape = (markers cs).foldlM nest [] := by
  rw [shape_foldlM, ofChars, foldlM_nest_scan]
  rfl

theorem exists_ofLexemes_iff {help : List String} {cs : List Char} :
    (∃ ts, ofLexemes help (ofChars cs) = .ok ts) ↔ (markers cs).foldlM nest [] = .ok [] := by
  rw [← shape_foldlM_ofChars help]
  unfold ofLexemes
  cases (ofChars cs).foldlM step ⟨help, [], []⟩ with
  | error d => simp [bind, Except.bind, Except.map]
  | ok s =>
    obtain ⟨rest, outer, groups⟩ := s
    cases groups <;> simp [bind, Except.bind, Except.map, State.shape, finish]

theorem ofLexemes_eq_error {help : List String} {cs : List Char} {d : Defect} :
    ofLexemes help (ofChars cs) = .error d ↔ (markers cs).foldlM nest [] = .error d ∨
      ∃ g gs, (markers cs).foldlM nest [] = .ok (g :: gs) ∧ d = .unbalanced := by
  rw [← shape_foldlM_ofChars help]
  unfold ofLexemes
  cases (ofChars cs).foldlM step ⟨help, [], []⟩ with
  | error d => simp [bind, Except.bind, Except.map]
  | ok s =>
    obtain ⟨rest, outer, groups⟩ := s
    cases groups <;> simp [bind, Except.bind, Except.map, State.shape, finish, eq_comm]

/-! ## Reading and nesting -/

/-- A group in which `k` branches are counted is read as a whole. -/
theorem foldlM_nest_group {kind : GroupKind} {k : ℕ} (limit : kind = .permutation → k ≤ 6)
    (h : ms.foldlM nest ((kind, 1) :: gs) = .ok ((kind, k) :: gs)) :
    (Lexeme.opens kind :: ms ++ [Lexeme.closes kind]).foldlM nest gs = .ok gs := by
  have hlimit : ¬ (kind = .permutation ∧ branchLimit < k) := fun ⟨hkind, hlt⟩ =>
    absurd (limit hkind) (Nat.not_le.mpr hlt)
  have hclose : nest ((kind, k) :: gs) (.closes kind) = .ok gs := by
    rw [nest, if_pos rfl, if_neg hlimit]
  rw [List.cons_append, List.foldlM_cons, nest]
  simp only [bind, Except.bind, List.foldlM_append, h, List.foldlM_cons, hclose]
  rfl

theorem foldlM_nest_branches {n : ℕ} (h : Branches n ms) (kind : GroupKind)
    (gs : List (GroupKind × ℕ)) : ms.foldlM nest ((kind, 1) :: gs) = .ok ((kind, n) :: gs) := by
  induction h generalizing kind gs with
  | nil => rfl
  | bar before ih =>
    rw [List.foldlM_append, ih]
    rfl
  | group before inside limit ih₁ ih₂ =>
    rw [List.foldlM_append, ih₁]
    exact foldlM_nest_group limit (ih₂ _ _)

theorem foldlM_nest_nests (h : Nests ms) (gs : List (GroupKind × ℕ)) :
    ms.foldlM nest gs = .ok gs := by
  -- The number of branches is an index, and the induction needs it as a variable.
  suffices ∀ n, Branches n ms → n = 1 → ms.foldlM nest gs = .ok gs from this 1 h rfl
  clear h
  intro n h hn
  induction h with
  | nil => rfl
  | bar before _ =>
    have := before.pos
    omega
  | group before inside limit ih _ =>
    rw [List.foldlM_append, ih hn]
    exact foldlM_nest_group limit (foldlM_nest_branches inside _ _)

theorem foldlM_nest_of_leavesOpen (h : LeavesOpen gs ms) : ms.foldlM nest [] = .ok gs := by
  induction h with
  | outside nests => exact foldlM_nest_nests nests []
  | inside before kind branches ih =>
    rw [List.foldlM_append, ih]
    exact foldlM_nest_branches branches kind _

theorem leavesOpen_snoc (h : LeavesOpen gs ms) (hm : nest gs m = .ok gs')
    (hword : ∀ text, m ≠ .word text) : LeavesOpen gs' (ms ++ [m]) := by
  cases m with
  | word text => exact absurd rfl (hword text)
  | opens kind =>
    cases hm
    exact .inside h kind .nil
  | closes kind =>
    cases h with
    | outside nests => cases hm
    | @inside gs ms inner n before other branches =>
      rw [nest] at hm
      split_ifs at hm with hkind hlimit
      cases hm
      subst hkind
      have limit : other = .permutation → n ≤ 6 := fun hperm =>
        Nat.not_lt.mp fun hlt => hlimit ⟨hperm, hlt⟩
      rw [List.append_assoc]
      exact before.group branches limit
  | bar =>
    cases h with
    | outside nests => cases hm
    | inside before kind branches =>
      cases hm
      rw [List.append_assoc, List.cons_append]
      exact .inside before kind branches.bar

theorem foldlM_nest_snoc : (ms ++ [m]).foldlM nest gs = .ok gs' ↔
    ∃ hs, ms.foldlM nest gs = .ok hs ∧ nest hs m = .ok gs' := by
  have hsingle (hs : List (GroupKind × ℕ)) : [m].foldlM nest hs = nest hs m := bind_pure _
  rw [List.foldlM_append]
  cases ms.foldlM nest gs <;> simp [hsingle, bind, Except.bind]

/-- **The groups that are open after some markers**, by the grammar and by reading. -/
theorem leavesOpen_iff (hwords : ∀ text, Lexeme.word text ∉ ms) :
    LeavesOpen gs ms ↔ ms.foldlM nest [] = .ok gs := by
  refine ⟨foldlM_nest_of_leavesOpen, fun h => ?_⟩
  -- Markers are read from the left, so the last one is taken away: the rest is a beginning.
  induction ms using List.reverseRecOn generalizing gs with
  | nil =>
    cases h
    exact .outside .nil
  | append_singleton ms m ih =>
    obtain ⟨hs, hms, hm⟩ := foldlM_nest_snoc.mp h
    have hbefore : LeavesOpen hs ms :=
      ih (fun text ht => hwords text (List.mem_append_left _ ht)) hms
    refine leavesOpen_snoc hbefore hm fun text ht => ?_
    exact hwords text (ht ▸ List.mem_append_right _ (List.mem_singleton_self m))

theorem nests_iff (hwords : ∀ text, Lexeme.word text ∉ ms) :
    Nests ms ↔ ms.foldlM nest [] = .ok [] := by
  rw [← leavesOpen_iff hwords]
  refine ⟨.outside, fun h => ?_⟩
  cases h with
  | outside nests => exact nests

/-! ## What goes wrong -/

theorem offends_iff (spec : String) {e : Error} :
    Offends spec gs m e ↔ ∃ d, nest gs m = .error d ∧ d.toError spec = e := by
  constructor
  · intro h
    cases h with
    | unopened kind => exact ⟨_, rfl, rfl⟩
    | mismatched ne => exact ⟨.unbalanced, by rw [nest, if_neg ne], rfl⟩
    | @oversized n gs excess =>
      exact ⟨.tooManyBranches n, by rw [nest, if_pos rfl, if_pos ⟨rfl, excess⟩], rfl⟩
    | strayBar => exact ⟨_, rfl, rfl⟩
  · rintro ⟨d, hd, rfl⟩
    cases m with
    | word text => cases hd
    | opens kind => cases hd
    | closes kind =>
      rcases gs with _ | ⟨⟨other, n⟩, gs⟩
      · cases hd
        exact .unopened kind
      · rw [nest] at hd
        split_ifs at hd with hkind hlimit
        · cases hd
          obtain ⟨rfl, hlt⟩ := hlimit
          subst hkind
          exact .oversized hlt
        · cases hd
          exact .mismatched hkind
    | bar =>
      rcases gs with _ | ⟨⟨other, n⟩, gs⟩
      · cases hd
        exact .strayBar
      · cases hd

theorem foldlM_nest_eq_error {d : Defect} : ms.foldlM nest gs = .error d ↔
    ∃ before m after hs, ms = before ++ m :: after ∧ before.foldlM nest gs = .ok hs ∧
      nest hs m = .error d := by
  constructor
  · intro h
    induction ms generalizing gs with
    | nil => cases h
    | cons m ms ih =>
      cases hm : nest gs m with
      | error d' =>
        rw [List.foldlM_cons, hm] at h
        cases h
        exact ⟨[], m, ms, gs, rfl, rfl, hm⟩
      | ok gs' =>
        rw [List.foldlM_cons, hm] at h
        obtain ⟨before, m', after, hs, rfl, hbefore, hm'⟩ := ih h
        refine ⟨m :: before, m', after, hs, rfl, ?_, hm'⟩
        rw [List.foldlM_cons, hm]
        exact hbefore
  · rintro ⟨before, m, after, hs, rfl, hbefore, hm⟩
    rw [List.foldlM_append, hbefore]
    simp only [bind, Except.bind, List.foldlM_cons, hm]

/-- **The first fault, by the grammar and by reading.** -/
theorem firstFault_iff (hwords : ∀ text, Lexeme.word text ∉ ms) (spec : String) {e : Error} :
    FirstFault spec ms e ↔ ∃ d, (ms.foldlM nest [] = .error d ∨
      ∃ g gs, ms.foldlM nest [] = .ok (g :: gs) ∧ d = .unbalanced) ∧ d.toError spec = e := by
  constructor
  · intro h
    cases h with
    | marker inPlace offends =>
      obtain ⟨d, hd, he⟩ := (offends_iff spec).mp offends
      have hbefore := foldlM_nest_of_leavesOpen inPlace
      exact ⟨d, .inl (foldlM_nest_eq_error.mpr ⟨_, _, _, _, rfl, hbefore, hd⟩), he⟩
    | unclosed inPlace =>
      exact ⟨.unbalanced, .inr ⟨_, _, foldlM_nest_of_leavesOpen inPlace, rfl⟩, rfl⟩
  · rintro ⟨d, hd | ⟨g, gs, hgs, rfl⟩, rfl⟩
    · obtain ⟨before, m, after, hs, rfl, hbefore, hm⟩ := foldlM_nest_eq_error.mp hd
      have hwords' : ∀ text, Lexeme.word text ∉ before := fun text ht =>
        hwords text (List.mem_append_left _ ht)
      exact .marker ((leavesOpen_iff hwords').mpr hbefore) ((offends_iff spec).mpr ⟨d, hm, rfl⟩)
    · exact .unclosed ((leavesOpen_iff hwords).mpr hgs)

end Compile

theorem Lexeme.word_notMem_markers (cs : List Char) (text : String) : word text ∉ markers cs := by
  intro h
  obtain ⟨c, -, hc⟩ := List.mem_filterMap.mp h
  unfold marker? at hc
  split at hc <;> cases hc

/-- **A specification compiles if and only if its markers nest.** Otherwise the first marker that is
out of place decides the error, or a group that is open at the end. -/
theorem compile_iff_nests (spec : String) (help : List String) :
    ((∃ ts, compile spec help = .ok ts) ↔ Nests (markers (trim spec).toList)) ∧
      ∀ e, compile spec help = .error e ↔
        FirstFault (trim spec) (markers (trim spec).toList) e := by
  have hwords := word_notMem_markers (trim spec).toList
  refine ⟨?_, fun e => ?_⟩
  · simp only [compile_eq_ok, ← ofChars_trim spec]
    rw [Compile.exists_ofLexemes_iff, Compile.nests_iff hwords]
  · rw [compile_eq_error, Compile.firstFault_iff hwords]
    simp only [← ofChars_trim spec, Compile.ofLexemes_eq_error]

/-- The permutation is closed before the bar, so the number of its branches is the error. -/
example : compile "\x7ba|b|c|d|e|f|g\x7d | (h" [] =
    .error (.tooManyBranches "\x7ba|b|c|d|e|f|g\x7d | (h" 7 6) := by
  decide +kernel

end Console
