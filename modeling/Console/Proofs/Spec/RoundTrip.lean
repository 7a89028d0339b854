import Console.Proofs.Spec.WellFormed

/-!
# Rendering and compiling

Compiling is the inverse of rendering. In one direction the lexemes of well-formed tokens are read
back one token after another; in the other, what has been read has the lexemes that were read, so
that the text it is rendered to is compiled in the same way.

* `Compile.State.pushAll`, **`foldlM_lexemes`**: the lexemes of a well-formed token add this token;
* `Compile.State.lexemes`, **`lexemes_step`**: a state has the lexemes that led to it;
* **`State.WellFormed.step`**: a state consists of well-formed tokens;
* **`compile_renderSeq`**: rendering and compiling are inverse.
-/

namespace Console

open Text Lexeme Token

namespace Compile

variable {s s' : State} {t : Token} {ts : List Token} {kind : GroupKind}

/-! ## From tokens to their text and back -/

/-- Adds some tokens to the branch being read. -/
def State.pushAll (ts : List Token) (s : State) : State := ts.foldl (fun s t => s.push t) s

theorem isEmpty_groups_push (t : Token) (s : State) :
    (s.push t).groups.isEmpty = s.groups.isEmpty := by
  unfold State.push
  split <;> rename_i h <;> rw [h]
  rfl

theorem help_push (t : Token) (s : State) : (s.push t).help = s.help := by
  unfold State.push
  split <;> rfl

theorem push_with_help (t : Token) (s : State) (help : List String) :
    { s.push t with help } = { s with help }.push t := by
  obtain ⟨_, outer, groups⟩ := s
  cases groups with
  | nil => rfl
  | cons g gs => rfl

theorem pushAll_outer (help : List String) (outer ts : List Token) :
    State.pushAll ts ⟨help, outer, []⟩ = ⟨help, outer ++ ts, []⟩ := by
  induction ts generalizing outer with
  | nil => rw [List.append_nil]; rfl
  | cons t ts ih =>
    have h := ih (outer ++ [t])
    rw [List.append_assoc] at h
    exact h

theorem pushAll_group (help : List String) (outer : List Token) (bs : List (List Token))
    (current : List Token) (gs : List OpenGroup) (ts : List Token) :
    State.pushAll ts ⟨help, outer, ⟨kind, bs, current⟩ :: gs⟩ =
      ⟨help, outer, ⟨kind, bs, current ++ ts⟩ :: gs⟩ := by
  induction ts generalizing current with
  | nil => rw [List.append_nil]; rfl
  | cons t ts ih =>
    have h := ih (current ++ [t])
    rw [List.append_assoc] at h
    exact h

/-- The lexemes of a token add this token, in every state that stands in a group or outside all
groups as the token does, and whose next help texts are those of its elements. -/
def Adds (inGroup : Bool) (t : Token) : Prop :=
  ∀ (s : State) (rest : List String), s.groups.isEmpty = !inGroup →
    s.help = t.elements.map Element.description ++ rest →
    t.lexemes.foldlM step s = .ok ({ s with help := rest }.push t)

theorem foldlM_seqLexemes {inGroup : Bool} (h : ∀ t ∈ ts, Adds inGroup t) (rest : List String)
    (hgroup : s.groups.isEmpty = !inGroup)
    (hhelp : s.help = (seqElements ts).map Element.description ++ rest) :
    (seqLexemes ts).foldlM step s = .ok ({ s with help := rest }.pushAll ts) := by
  induction ts generalizing s with
  | nil =>
    obtain ⟨help, outer, groups⟩ := s
    cases hhelp
    rfl
  | cons t ts ih =>
    rw [seqElements, List.map_append, List.append_assoc] at hhelp
    rw [seqLexemes, List.foldlM_append, h t List.mem_cons_self s _ hgroup hhelp]
    have hih := ih (fun u hu => h u (List.mem_cons_of_mem t hu))
      (s := { s with help := (seqElements ts).map Element.description ++ rest }.push t)
      (Eq.trans (isEmpty_groups_push t _) hgroup) (help_push t _)
    rw [push_with_help] at hih
    exact hih

theorem foldlM_closes (kind : GroupKind) (help : List String) (outer : List Token)
    (bs : List (List Token)) (current : List Token) (gs : List OpenGroup)
    (limit : kind = .permutation → (bs ++ [current]).length ≤ 6) :
    step ⟨help, outer, ⟨kind, bs, current⟩ :: gs⟩ (.closes kind) =
      .ok (State.push (.group kind (bs ++ [current])) ⟨help, outer, gs⟩) := by
  unfold step
  simp only [if_true]
  rw [if_neg]
  rintro ⟨hkind, hlimit⟩
  exact absurd (limit hkind) (Nat.not_le.mpr hlimit)

theorem foldlM_barredLexemes {bs : List (List Token)} (h : ∀ b ∈ bs, ∀ t ∈ b, Adds true t)
    (kind : GroupKind) (help rest : List String) (outer : List Token)
    (read : List (List Token)) (current : List Token) (gs : List OpenGroup)
    (limit : kind = .permutation → (read ++ current :: bs).length ≤ 6)
    (hhelp : help = (branchElements bs).map Element.description ++ rest) :
    (barredLexemes bs ++ [Lexeme.closes kind]).foldlM step
        ⟨help, outer, ⟨kind, read, current⟩ :: gs⟩ =
      .ok (State.push (.group kind (read ++ current :: bs)) ⟨rest, outer, gs⟩) := by
  induction bs generalizing help read current with
  | nil =>
    cases hhelp
    have hclose := foldlM_closes kind rest outer read current gs limit
    rw [barredLexemes, List.nil_append, List.foldlM_cons]
    exact congrArg (· >>= _) hclose
  | cons b bs ih =>
    rw [branchElements, List.map_append, List.append_assoc] at hhelp
    have hseq := foldlM_seqLexemes (s := ⟨help, outer, ⟨kind, read ++ [current], []⟩ :: gs⟩)
      (h b List.mem_cons_self) _ rfl hhelp
    rw [pushAll_group, List.nil_append] at hseq
    have hbs := ih (fun c hc => h c (List.mem_cons_of_mem b hc)) _ (read ++ [current]) b
      (by rwa [List.append_assoc]) rfl
    rw [List.append_assoc] at hbs
    rw [barredLexemes, List.cons_append, List.append_assoc, List.foldlM_cons]
    have hbar : step ⟨help, outer, ⟨kind, read, current⟩ :: gs⟩ .bar =
        .ok ⟨help, outer, ⟨kind, read ++ [current], []⟩ :: gs⟩ := rfl
    rw [hbar]
    simp only [bind, Except.bind]
    rw [List.foldlM_append, hseq]
    exact hbs

/-- **The lexemes of a well-formed token add this token.** -/
theorem foldlM_lexemes {inGroup : Bool} (h : t.WellFormed inGroup) : Adds inGroup t := by
  induction h with
  | @element inGroup argspec description h =>
    intro s rest hgroup hhelp
    rw [lexemes, List.foldlM_cons]
    have hhead : s.help.head?.getD "" = description := by
      rw [hhelp]
      rfl
    have htail : s.help.tail = rest := by
      rw [hhelp]
      rfl
    have hstep : step s (.word argspec) =
        .ok ({ s with help := rest }.push (.element (.ofArgspec argspec description inGroup))) := by
      simp only [step, hhead, htail, hgroup, Bool.not_not]
    exact congrArg (· >>= _) hstep
  | @group inGroup kind branches ne limit inner ih =>
    intro s rest hgroup hhelp
    obtain ⟨help, outer, groups⟩ := s
    cases branches with
    | nil => exact absurd rfl ne
    | cons b bs =>
      rw [elements, branchElements, List.map_append, List.append_assoc] at hhelp
      have hseq := foldlM_seqLexemes (s := ⟨help, outer, ⟨kind, [], []⟩ :: groups⟩)
        (ih b List.mem_cons_self) _ rfl hhelp
      rw [pushAll_group, List.nil_append] at hseq
      rw [lexemes, List.foldlM_cons, List.append_assoc]
      have hopen : step ⟨help, outer, groups⟩ (.opens kind) =
          .ok ⟨help, outer, ⟨kind, [], []⟩ :: groups⟩ := rfl
      rw [hopen]
      simp only [bind, Except.bind]
      rw [List.foldlM_append, hseq]
      exact foldlM_barredLexemes (fun c hc => ih c (List.mem_cons_of_mem b hc)) kind _ rest outer
        [] b groups limit rfl

/-! ## From a text to tokens and back -/

/-- The lexemes of what has been read of a group. -/
def OpenGroup.lexemes (g : OpenGroup) : List Lexeme :=
  .opens g.kind :: branchLexemes (g.branches ++ [g.current])

/-- The lexemes of what has been read of some open groups, the innermost first. -/
def openLexemes : List OpenGroup → List Lexeme
  | [] => []
  | g :: gs => openLexemes gs ++ g.lexemes

/-- The lexemes of what has been read. -/
def State.lexemes (s : State) : List Lexeme := seqLexemes s.outer ++ openLexemes s.groups

theorem lexemes_push (t : Token) (s : State) : (s.push t).lexemes = s.lexemes ++ t.lexemes := by
  obtain ⟨help, outer, groups⟩ := s
  cases groups with
  | nil =>
    simp only [State.push, State.lexemes, openLexemes, List.append_nil]
    rw [seqLexemes_append, seqLexemes_singleton]
  | cons g gs =>
    simp only [State.push, State.lexemes, openLexemes, OpenGroup.lexemes]
    rw [branchLexemes_grow, seqLexemes_singleton]
    simp only [List.append_assoc, List.cons_append]

/-- **A state has the lexemes that led to it.** -/
theorem lexemes_step {l : Lexeme} (h : step s l = .ok s') : s'.lexemes = s.lexemes ++ [l] := by
  obtain ⟨help, outer, groups⟩ := s
  cases l with
  | word text =>
    cases h
    rw [lexemes_push]
    rfl
  | opens kind =>
    cases h
    exact (List.append_assoc _ _ _).symm
  | closes kind =>
    cases groups with
    | nil => cases h
    | cons g gs =>
      unfold step at h
      simp only at h
      split_ifs at h with hkind hlimit
      cases h
      rw [lexemes_push, lexemes_group, ← hkind]
      simp only [State.lexemes, openLexemes, OpenGroup.lexemes, List.append_assoc, List.cons_append]
  | bar =>
    cases groups with
    | nil => cases h
    | cons g gs =>
      cases h
      have hne : g.branches ++ [g.current] ≠ [] :=
        List.append_ne_nil_of_right_ne_nil _ (List.cons_ne_nil _ _)
      have hbar := branchLexemes_append hne []
      simp only [State.lexemes, openLexemes, OpenGroup.lexemes]
      rw [hbar, seqLexemes]
      simp only [List.append_assoc, List.cons_append]

/-- What has been read of a group is well-formed. -/
def OpenGroup.WellFormed (g : OpenGroup) : Prop :=
  ∀ b ∈ g.branches ++ [g.current], ∀ t ∈ b, t.WellFormed true

/-- What has been read is well-formed. -/
structure State.WellFormed (s : State) : Prop where
  outer : ∀ t ∈ s.outer, t.WellFormed false
  groups : ∀ g ∈ s.groups, g.WellFormed

theorem OpenGroup.WellFormed.push {bs : List (List Token)} {current : List Token}
    (hg : OpenGroup.WellFormed ⟨kind, bs, current⟩) (ht : t.WellFormed true) :
    OpenGroup.WellFormed ⟨kind, bs, current ++ [t]⟩ := by
  intro b hb u hu
  rcases List.mem_append.mp hb with hb | hb
  · exact hg b (List.mem_append_left _ hb) u hu
  · rw [List.mem_singleton.mp hb] at hu
    rcases List.mem_append.mp hu with hu | hu
    · exact hg current (List.mem_append_right _ (List.mem_singleton_self _)) u hu
    · exact List.mem_singleton.mp hu ▸ ht

theorem OpenGroup.WellFormed.bar {bs : List (List Token)}
    (h : ∀ b ∈ bs, ∀ t ∈ b, t.WellFormed true) : OpenGroup.WellFormed ⟨kind, bs, []⟩ := by
  intro b hb u hu
  rcases List.mem_append.mp hb with hb | hb
  · exact h b hb u hu
  · rw [List.mem_singleton.mp hb] at hu
    exact absurd hu List.not_mem_nil

theorem State.WellFormed.push (hs : s.WellFormed) (ht : t.WellFormed !s.groups.isEmpty) :
    (s.push t).WellFormed := by
  obtain ⟨help, outer, groups⟩ := s
  cases groups with
  | nil =>
    refine ⟨fun u hu => ?_, hs.groups⟩
    rcases List.mem_append.mp hu with hu | hu
    · exact hs.outer u hu
    · exact List.mem_singleton.mp hu ▸ ht
  | cons g gs =>
    obtain ⟨hg, hgs⟩ := List.forall_mem_cons.mp hs.groups
    exact ⟨hs.outer, List.forall_mem_cons.mpr ⟨hg.push ht, hgs⟩⟩

/-- **A state consists of well-formed tokens.** -/
theorem State.WellFormed.step {l : Lexeme} (hs : s.WellFormed)
    (hword : ∀ text, l = .word text → IsArgspec text) (h : step s l = .ok s') :
    s'.WellFormed := by
  obtain ⟨help, outer, groups⟩ := s
  cases l with
  | word text =>
    cases h
    exact State.WellFormed.push ⟨hs.outer, hs.groups⟩ (.element _ (hword text rfl))
  | opens kind =>
    cases h
    have hopen : OpenGroup.WellFormed ⟨kind, [], []⟩ :=
      .bar fun b hb => absurd hb List.not_mem_nil
    exact ⟨hs.outer, List.forall_mem_cons.mpr ⟨hopen, hs.groups⟩⟩
  | closes kind =>
    cases groups with
    | nil => cases h
    | cons g gs =>
      unfold Compile.step at h
      simp only at h
      split_ifs at h with hkind hlimit
      cases h
      obtain ⟨hg, hgs⟩ := List.forall_mem_cons.mp hs.groups
      refine State.WellFormed.push ⟨hs.outer, hgs⟩ (.group ?_ (fun hperm => ?_) hg)
      · exact List.append_ne_nil_of_right_ne_nil _ (List.cons_ne_nil _ _)
      · exact Nat.not_lt.mp fun hlt => hlimit ⟨hperm, hlt⟩
  | bar =>
    cases groups with
    | nil => cases h
    | cons g gs =>
      cases h
      obtain ⟨hg, hgs⟩ := List.forall_mem_cons.mp hs.groups
      exact ⟨hs.outer, List.forall_mem_cons.mpr ⟨.bar hg, hgs⟩⟩

theorem read_foldlM {ls : List Lexeme} (hs : s.WellFormed)
    (hwords : ∀ text, .word text ∈ ls → IsArgspec text) (h : ls.foldlM step s = .ok s') :
    s'.lexemes = s.lexemes ++ ls ∧ s'.WellFormed := by
  induction ls generalizing s with
  | nil =>
    cases h
    exact ⟨(List.append_nil _).symm, hs⟩
  | cons l ls ih =>
    rw [List.foldlM_cons] at h
    cases hstep : step s l with
    | error d =>
      rw [hstep] at h
      cases h
    | ok u =>
      rw [hstep] at h
      have hu : u.WellFormed := hs.step (fun text hl => hwords text (hl ▸ List.mem_cons_self)) hstep
      obtain ⟨hlexemes, hwf⟩ := ih hu (fun text ht => hwords text (List.mem_cons_of_mem l ht)) h
      refine ⟨?_, hwf⟩
      rw [hlexemes, lexemes_step hstep, List.append_assoc, List.singleton_append]

theorem ofLexemes_eq_ok {help : List String} {ls : List Lexeme}
    (hwords : ∀ text, .word text ∈ ls → IsArgspec text) (h : ofLexemes help ls = .ok ts) :
    seqLexemes ts = ls ∧ ∀ t ∈ ts, t.WellFormed false := by
  unfold ofLexemes at h
  cases hfold : ls.foldlM step ⟨help, [], []⟩ with
  | error d =>
    rw [hfold] at h
    cases h
  | ok s =>
    have hstart : State.WellFormed ⟨help, [], []⟩ :=
      ⟨fun _ ht => absurd ht List.not_mem_nil, fun _ hg => absurd hg List.not_mem_nil⟩
    obtain ⟨hls, hwf⟩ := read_foldlM hstart hwords hfold
    obtain ⟨rest, outer, groups⟩ := s
    rw [hfold] at h
    cases groups with
    | nil =>
      cases h
      exact ⟨(List.append_nil _).symm.trans hls, hwf.outer⟩
    | cons g gs => cases h

theorem ofLexemes_seqLexemes (h : ∀ t ∈ ts, t.WellFormed false) :
    ofLexemes ((seqElements ts).map Element.description) (seqLexemes ts) = .ok ts := by
  have hfold := foldlM_seqLexemes
    (s := ⟨(seqElements ts).map Element.description, [], []⟩)
    (fun t ht => foldlM_lexemes (h t ht)) [] rfl (List.append_nil _).symm
  rw [pushAll_outer] at hfold
  unfold ofLexemes
  rw [hfold]
  rfl

end Compile

theorem wellFormed_of_compile {spec : String} {help : List String} {ts : List Token}
    (h : compile spec help = .ok ts) :
    seqLexemes ts = ofChars spec.toList ∧ ∀ t ∈ ts, t.WellFormed false :=
  Compile.ofLexemes_eq_ok (fun _ => isArgspec_of_mem) (compile_eq_ok.mp h)

/-- **Rendering and compiling are inverse.** Well-formed tokens, with the descriptions of their
elements as help texts, are compiled from their text. What a specification is compiled to is
well-formed, and is compiled from its own text with the same help texts. -/
theorem compile_renderSeq :
    (∀ ts : List Token, (∀ t ∈ ts, t.WellFormed false) →
      compile (renderSeq ts) ((seqElements ts).map Element.description) = .ok ts) ∧
    ∀ (spec : String) (help : List String) (ts : List Token), compile spec help = .ok ts →
      (∀ t ∈ ts, t.WellFormed false) ∧ compile (renderSeq ts) help = .ok ts := by
  constructor
  · intro ts h
    rw [compile_eq_ok, ofChars_renderSeq h]
    exact Compile.ofLexemes_seqLexemes h
  · intro spec help ts h
    obtain ⟨hls, hwf⟩ := wellFormed_of_compile h
    refine ⟨hwf, ?_⟩
    rw [compile_eq_ok, ofChars_renderSeq hwf, hls]
    exact compile_eq_ok.mp h

/-- The tokens of a command with a permutation that may be left out. -/
def Token.sshfs : List Token :=
  [element (.ofArgspec "sshfs" "Mount" false), element (.ofArgspec "HOST" "" false),
    group .alternation
      [[group .permutation
          [[element (.ofArgspec "port" "" true), element (.ofArgspec "<1-65535>" "" true)],
            [element (.ofArgspec "ro" "" true)]]],
        []]]

theorem compile_renderSeq_sshfs :
    renderSeq sshfs = "sshfs HOST (\x7bport <1-65535> | ro\x7d | )" ∧
      compile " sshfs HOST(\x7bport <1-65535>|ro\x7d|)" ["Mount"] = .ok sshfs ∧
      (∀ t ∈ sshfs, t.WellFormed false) ∧ compile (renderSeq sshfs) ["Mount"] = .ok sshfs ∧
      compile (renderSeq sshfs) ((seqElements sshfs).map Element.description) = .ok sshfs := by
  have h : compile " sshfs HOST(\x7bport <1-65535>|ro\x7d|)" ["Mount"] = .ok sshfs := by
    decide +kernel
  obtain ⟨hwf, hagain⟩ := compile_renderSeq.2 _ _ _ h
  exact ⟨by decide +kernel, h, hwf, hagain, compile_renderSeq.1 sshfs hwf⟩

end Console
