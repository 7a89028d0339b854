import Console.Proofs.Shell.Loaded

/-!
# What stands at a path of a loaded shell

Sets are compiled, built into a tree of their own and merged into the tree of the shell. What stands
at a path afterwards can be said without all that, from the commands alone.

* `CommandTree.Reflects`: a tree has at a path just what some commands say;
* `Gains.reflects`: so has a tree that has gained them;
* `Command.loadedBy`: the commands of some batches in the order in which they are loaded;
* **`lookup_of_loadedWith`**: a shell reflects the commands that were loaded into it.
-/

namespace Console

variable {σ : Type}

/-- A tree has at the path `p` just what the commands `cs` say: a node is there if one of them
reaches `p`, it is hidden if all that reach `p` are, and it has the handler of the last that
denotes `p`. -/
structure CommandTree.Reflects (t : CommandTree (Handler σ)) (cs : List (Command σ))
    (p : List String) : Prop where
  exists_iff : (∃ n, t.lookup p = some n) ↔ ∃ c ∈ cs, c.Reaches p
  hidden_iff : ∀ n, t.lookup p = some n →
    (n.hidden = true ↔ ∀ c ∈ cs, c.Reaches p → c.hidden = true)
  handler_eq_some : ∀ n, t.lookup p = some n → ∀ h, n.handler = some h ↔
    ∃ before c after, cs = before ++ c :: after ∧ c.Denotes p ∧ c.handler = h ∧
      ∀ d ∈ after, ¬ d.Denotes p
  handler_eq_none : ∀ n, t.lookup p = some n → (n.handler = none ↔ ∀ c ∈ cs, ¬ c.Denotes p)

namespace CommandTree

theorem Gains.reflects {t : CommandTree (Handler σ)} {cs : List (Command σ)}
    (h : Gains .root cs t) {p : List String} (hp : p ≠ []) : t.Reflects cs p := by
  have hl := h.labelAt_root hp
  have hnode : ∀ n, t.lookup p = some n → Label.all (cs.flatMap (·.labels p)) = some n.label := by
    intro n hn
    rw [← hl, CommandTree.labelAt, hn, Option.map_some]
  constructor
  · rw [← Command.isSome_all_labels hp, ← hl, CommandTree.labelAt, Option.isSome_map,
      Option.isSome_iff_exists]
  · intro n hn
    exact Command.hidden_all_labels hp (hnode n hn)
  · intro n hn g
    rw [← Command.handler_all_labels hp, hnode n hn]
    exact Iff.rfl
  · intro n hn
    rw [← Command.handler_all_labels_eq_none hp, hnode n hn]
    exact Iff.rfl

end CommandTree

/-- The commands of some batches in the order in which they are loaded. Of each batch a set keeps
one command for each specification. -/
def Command.loadedBy (batches : List (List (Command σ))) : List (Command σ) :=
  batches.flatMap Command.kept

/-- **A shell reflects the commands that were loaded into it.** -/
theorem Shell.lookup_of_loadedWith {prompt : String} {batches : List (List (Command σ))}
    {s : Shell σ} (hs : Shell.LoadedWith prompt (batches.map fun adds => .ofList adds) s)
    {p : List String} (hp : p ≠ []) : s.root.Reflects (Command.loadedBy batches) p := by
  have hb : (batches.map fun adds => CommandSet.ofList adds).flatMap CommandSet.brings =
      Command.loadedBy batches := by
    rw [List.flatMap_map, Command.loadedBy]
    exact congrArg (batches.flatMap ·) (funext CommandSet.brings_ofList)
  exact (hb ▸ hs.gains).reflects hp

/-- Two batches that share paths; the first adds one specification twice. -/
def Command.sharedPaths : List (List (Command Unit)) :=
  [[.idle "show \x7bip|version\x7d" true 0, .idle "show ip" false 1,
      .idle "show \x7bip|version\x7d" true 2],
    [.idle "show (version|) all" true 3, .idle "show version" true 4]]

/-- The shell after the batches with shared paths. -/
def Shell.ofSharedPaths : Shell Unit :=
  Command.sharedPaths.foldl (fun s adds => (s.load (.ofList adds) ()).shell) (.empty ">")

theorem Shell.lookup_sharedPaths :
    Shell.LoadedWith ">" (Command.sharedPaths.map fun adds => .ofList adds) Shell.ofSharedPaths ∧
      Shell.ofSharedPaths.root.Reflects (Command.loadedBy Command.sharedPaths)
        ["show", "version"] := by
  have hs : Shell.LoadedWith ">" (Command.sharedPaths.map fun adds => .ofList adds)
      Shell.ofSharedPaths :=
    .load _ () (.load _ () .empty (by decide +kernel)) (by decide +kernel)
  exact ⟨hs, lookup_of_loadedWith hs (List.cons_ne_nil _ _)⟩

/-- The node is hidden, as all that reach it are, and has the handler of the last command. -/
example : (Shell.ofSharedPaths.root.lookup ["show", "version"]).map
    (fun n => (n.hidden, n.handler.map Handler.serial)) = some (true, some 4) := by
  decide +kernel

end Console
