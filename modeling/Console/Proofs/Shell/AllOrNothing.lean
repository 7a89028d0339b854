import Console.Proofs.Shell.OneByOne
import Console.Proofs.Tree.Keyed

/-!
# Merging is all or nothing

The keys of assembled trees are the keywords of what is stored under them, so that a merge goes well
as soon as the keywords at the top agree; otherwise it changes nothing. The trees of shells all have
the same keyword at the top, and loading never meets a mismatch.

* `Shell.Made`: the shells that are made by loading, with success or not, and by the other ways to
  change a shell;
* `ne_rootMismatch_of_compile`, `ne_rootMismatch_of_buildAll`: commands fail for other reasons;
* `Loaded.Intact`, **`CommandSet.intact_loadInto`**: what a load leaves, also with actions inside;
* **`Shell.merge_all_or_nothing`**: keys, merges of assembled trees, and loading.
-/

namespace Console

variable {σ : Type}

/-! ## Failures of commands -/

theorem ne_rootMismatch_of_compile {spec : String} {help : List String} {e : Error}
    (h : compile spec help = .error e) (k l : String) : e ≠ .rootMismatch k l := by
  obtain ⟨d, -, rfl⟩ := compile_eq_error.mp h
  cases d <;> exact Error.noConfusion

namespace CommandTree

theorem ne_rootMismatch_of_buildAll {cs : List (Command σ)} {t : CommandTree (Handler σ)}
    {e : Error}
    (h : t.buildAll cs = .error e) (k l : String) : e ≠ .rootMismatch k l := by
  induction cs generalizing t with
  | nil => cases h
  | cons c cs ih =>
    cases hc : compile c.spec c.help with
    | error e' =>
      rw [buildAll_cons_of_error hc] at h
      obtain rfl : e' = e := Except.error.inj h
      exact ne_rootMismatch_of_compile hc k l
    | ok tokens =>
      rw [buildAll_cons_of_ok hc] at h
      exact ih h

end CommandTree

open CommandTree

namespace Shell

theorem rooted_withCommands {s t : Shell σ} (hs : s.root.Rooted) {cs : List (Command σ)}
    (h : s.withCommands cs = .ok t) : t.root.Rooted := by
  rw [withCommands_eq, withCommands_eq_buildAll hs] at h
  cases hb : s.root.buildAll cs with
  | error e =>
    rw [hb] at h
    cases h
  | ok root =>
    rw [hb] at h
    cases h
    exact hs.buildAll hb

theorem ne_rootMismatch_of_withCommands {s : Shell σ} (hs : s.root.Rooted) {cs : List (Command σ)}
    {e : Error} (h : s.withCommands cs = .error e) (k l : String) : e ≠ .rootMismatch k l := by
  rw [withCommands_eq, withCommands_eq_buildAll hs] at h
  cases hb : s.root.buildAll cs with
  | ok root =>
    rw [hb] at h
    cases h
  | error e' =>
    rw [hb] at h
    obtain rfl : e' = e := Except.error.inj h
    exact ne_rootMismatch_of_buildAll hb k l

end Shell

/-! ## What a load leaves -/

/-- A load has left a tree of a shell, and has not failed for a mismatch. -/
structure Loaded.Intact (l : Loaded σ) : Prop where
  rooted : l.shell.root.Rooted
  ne_rootMismatch : ∀ e, l.result = .error e → ∀ k k', e ≠ .rootMismatch k k'

theorem Loaded.Intact.ok {l : Loaded σ} (h : l.shell.root.Rooted) (hr : l.result = .ok ()) :
    l.Intact :=
  ⟨h, fun _ he => by cases hr.symm.trans he⟩

theorem Loaded.Intact.error {l : Loaded σ} (h : l.shell.root.Rooted) {e : Error}
    (hr : l.result = .error e) (hne : ∀ k k', e ≠ .rootMismatch k k') : l.Intact :=
  ⟨h, fun _ he => Except.error.inj (hr.symm.trans he) ▸ hne⟩

mutual

/-- **A load leaves a tree of a shell, and never fails for a mismatch,** however deep the sets are
that its actions load. -/
theorem CommandSet.intact_loadInto : ∀ (set : CommandSet σ) (s : Shell σ) (world : σ),
    s.root.Rooted → (set.loadInto s world).Intact
  | ⟨commands, onLoad⟩, s, world, hs => by
    rw [CommandSet.loadInto]
    cases hc : s.withCommands commands with
    | error e => exact .error hs rfl (Shell.ne_rootMismatch_of_withCommands hs hc)
    | ok loaded =>
      have hloaded := Shell.rooted_withCommands hs hc
      cases onLoad with
      | none => exact .ok hloaded rfl
      | some actions =>
        have hactions := LoadAction.intact_performAll actions loaded world hloaded
        dsimp only
        cases hp : LoadAction.performAll loaded world actions with
        | mk result shell world' =>
          rw [hp] at hactions
          cases result with
          | ok => exact .ok hactions.rooted rfl
          | error e => exact .error hs rfl (hactions.ne_rootMismatch e rfl)

theorem LoadAction.intact_performAll : ∀ (actions : List (LoadAction σ)) (s : Shell σ) (world : σ),
    s.root.Rooted → (LoadAction.performAll s world actions).Intact
  | [], s, world, hs => .ok hs rfl
  | action :: actions, s, world, hs => by
    have haction := LoadAction.intact_perform action s world hs
    rw [LoadAction.performAll]
    cases hp : LoadAction.perform s world action with
    | mk result shell world' =>
      rw [hp] at haction
      cases result with
      | ok => exact LoadAction.intact_performAll actions shell world' haction.rooted
      | error e => exact haction

theorem LoadAction.intact_perform : ∀ (action : LoadAction σ) (s : Shell σ) (world : σ),
    s.root.Rooted → (LoadAction.perform s world action).Intact
  | .fail _, s, world, hs => .error hs rfl fun _ _ => Error.noConfusion
  | .setPrompt _, s, world, hs | .addMode _ _, s, world, hs | .observe _, s, world, hs =>
    .ok hs rfl
  | .load set, s, world, hs => CommandSet.intact_loadInto set s world hs
  | .register command, s, world, hs => by
    rw [LoadAction.perform]
    cases hc : s.withCommands [command] with
    | ok shell => exact .ok (Shell.rooted_withCommands hs hc) rfl
    | error e => exact .error hs rfl (Shell.ne_rootMismatch_of_withCommands hs hc)

end

/-! ## Shells -/

namespace Shell

/-- The shells that are made from empty ones: by loading, with success or not, by registering a
command, and by changing the prompt or the modes. -/
inductive Made : Shell σ → Prop where
  | empty (prompt : String) : Made (.empty prompt)
  | load {s : Shell σ} (before : Made s) (set : CommandSet σ) (world : σ) :
    Made (s.load set world).shell
  | register {s t : Shell σ} (before : Made s) (command : Command σ)
    (success : s.register command = .ok t) : Made t
  | setPrompt {s : Shell σ} (before : Made s) (prompt : String) : Made { s with prompt }
  | setModes {s : Shell σ} (before : Made s) (modes : List (String × Shell σ)) :
    Made { s with modes }

theorem Made.rooted {s : Shell σ} (h : s.Made) : s.root.Rooted := by
  induction h with
  | empty prompt => exact rooted_root
  | load _ set world ih => exact (CommandSet.intact_loadInto set _ world ih).rooted
  | register _ command success ih => exact rooted_withCommands ih success
  | setPrompt _ _ ih => exact ih
  | setModes _ _ ih => exact ih

/-- **Merging is all or nothing.** In an assembled tree the keys ascend at every node, and each
child is stored under its own keyword, which is one that a specification can hold. A merge of two
assembled trees goes well if and only if their keywords are the same; otherwise it reports the two
keywords and leaves its target as it was. Loading a set into a shell never reports such a mismatch.
-/
theorem merge_all_or_nothing {t u : CommandTree (Handler σ)} (ht : t.Assembled)
    (hu : u.Assembled) {s : Shell σ} (hs : s.Made) :
    t.Sound ∧
      (∀ p k n, t.lookup (p ++ [k]) = some n → n.keyword = k ∧ IsKeyword k) ∧
      t.merge u = (t.mergeInto u).toExcept ∧
      ((t.mergeInto u).result = if t.keyword = u.keyword then .ok ()
        else .error (.rootMismatch t.keyword u.keyword)) ∧
      (t.keyword ≠ u.keyword → (t.mergeInto u).target = t) ∧
      ∀ set world k l, (s.load set world).result ≠ .error (.rootMismatch k l) := by
  have hkeyed := ht.keyed
  refine ⟨hkeyed.sound, fun p k n hn => ⟨keyword_of_lookup hkeyed.sound hn, ?_⟩,
    merge_eq_mergeInto u t, ?_, fun hne => ?_, fun set world => ?_⟩
  · exact hkeyed.isKeyword (p ++ [k]) (isSome_labelAt.mpr ⟨n, hn⟩) k (by simp)
  · exact result_mergeInto hkeyed.sound hu.keyed.sound
  · rw [mergeInto_of_ne hne]
  · intro k l h
    exact (CommandSet.intact_loadInto set s world hs.rooted).ne_rootMismatch _ h k l rfl

/-- A tree with one command. -/
def showTree : CommandTree (Handler Unit) :=
  CommandTree.root.build [.element (.ofArgspec "show" "" false),
    .group .alternation [[.element (.ofArgspec ".WORD" "" true)],
      [.element (.ofArgspec "version" "" true)]]]
    (Command.idle "show (.WORD|version)" false 0).handler false

/-- A node with another keyword than the trees of shells. -/
def otherNode : CommandTree (Handler Unit) := .leaf (.ofArgspec "other" "" false) false

/-- A set whose action loads a set that fails. -/
def failingSet : CommandSet Unit :=
  ⟨[.idle "show (.WORD|version)" false 0], some [.load ⟨[.idle "quit" false 1], some [.fail "no"]⟩]⟩

theorem merge_all_or_nothing_other :
    showTree.Assembled ∧ otherNode.Assembled ∧ (Shell.empty ">" : Shell Unit).Made ∧
      (∀ n, showTree.lookup ["show", "WORD"] = some n → n.keyword = "WORD" ∧ IsKeyword "WORD") ∧
      showTree.keyword ≠ otherNode.keyword ∧
      (showTree.mergeInto otherNode).result = .error (.rootMismatch "_root" "other") ∧
      (showTree.mergeInto otherNode).target = showTree ∧
      ((Shell.empty ">").load failingSet ()).result ≠ .error (.rootMismatch "_root" "_root") := by
  have hcompile : compile "show (.WORD|version)" [] = .ok [.element (.ofArgspec "show" "" false),
      .group .alternation [[.element (.ofArgspec ".WORD" "" true)],
        [.element (.ofArgspec "version" "" true)]]] := by
    decide +kernel
  have ht : showTree.Assembled := .build (.leaf _) hcompile _ _
  have hu : otherNode.Assembled := .leaf _
  have hs : (Shell.empty ">" : Shell Unit).Made := .empty ">"
  obtain ⟨-, hkeys, -, hresult, htarget, hload⟩ := merge_all_or_nothing ht hu hs
  have hne : showTree.keyword ≠ otherNode.keyword := by decide +kernel
  rw [if_neg hne] at hresult
  have hkeywords : showTree.keyword = "_root" ∧ otherNode.keyword = "other" := by decide +kernel
  rw [hkeywords.1, hkeywords.2] at hresult
  exact ⟨ht, hu, hs, hkeys ["show"] "WORD", hne, hresult, htarget hne, hload _ _ _ _⟩

end Shell

end Console
