import Console.Proofs.CommandSet
import Console.Shell.Load

/-!
# The batches that a set loads

A set is loaded with the sets that its actions load, and those with the sets of their own actions.
Each brings a batch of commands, and the tree that is left is the one that the batches make, loaded
one after another.

* `CommandTree.buildAll`: a tree to which some commands are added one after another;
* `CommandTree.withCommands`, `CommandTree.withBatches`: what batches of commands make of a tree;
* `CommandSet.batches`: the batches of a set and of the sets inside it, in the order in which they
  are loaded; `CommandSet.Unfailing`: no action inside it reports a failure;
* `Loaded.Leaves`: a success that leaves a certain tree;
* **`CommandSet.leaves_loadInto`**: when a set is loaded with success, and which tree it leaves;
* `CommandSet.root_loadInto_of_error`: a failure leaves the tree of before.
-/

namespace Console

variable {σ : Type}

theorem bind_eq_ok {ε α β : Type} {x : Except ε α} {f : α → Except ε β} {b : β} :
    x >>= f = .ok b ↔ ∃ a, x = .ok a ∧ f a = .ok b := by
  cases x <;> simp [bind, Except.bind]

/-! ## Commands and trees -/

namespace CommandTree

/-- A tree to which some commands are added one after another. -/
def buildAll (cs : List (Command σ)) (t : CommandTree (Handler σ)) :
    Except Error (CommandTree (Handler σ)) :=
  cs.foldlM (fun t c => return t.build (← compile c.spec c.help) c.handler c.hidden) t

theorem buildAll_cons_of_ok {c : Command σ} {tokens : List Token}
    (hc : compile c.spec c.help = .ok tokens) (cs : List (Command σ))
    (t : CommandTree (Handler σ)) :
    t.buildAll (c :: cs) = (t.build tokens c.handler c.hidden).buildAll cs := by
  rw [buildAll, List.foldlM_cons, hc]
  rfl

theorem buildAll_cons_of_error {c : Command σ} {e : Error}
    (hc : compile c.spec c.help = .error e) (cs : List (Command σ))
    (t : CommandTree (Handler σ)) : t.buildAll (c :: cs) = .error e := by
  rw [buildAll, List.foldlM_cons, hc]
  rfl

theorem buildAll_eq_error {before after : List (Command σ)} {c : Command σ} {e : Error}
    (hbefore : ∀ d ∈ before, ∃ tokens, compile d.spec d.help = .ok tokens)
    (hc : compile c.spec c.help = .error e) (t : CommandTree (Handler σ)) :
    t.buildAll (before ++ c :: after) = .error e := by
  induction before generalizing t with
  | nil => exact buildAll_cons_of_error hc after t
  | cons d before ih =>
    obtain ⟨tokens, hd⟩ := hbefore d List.mem_cons_self
    rw [List.cons_append, buildAll_cons_of_ok hd]
    exact ih (fun d' h => hbefore d' (List.mem_cons_of_mem d h)) _

end CommandTree

theorem Command.treeOf_eq_buildAll (commands : List (Command σ)) :
    treeOf commands = CommandTree.root.buildAll commands := rfl

/-! ## Batches and trees -/

namespace CommandTree

/-- A tree with some more commands, which are built apart and then merged. -/
def withCommands (commands : List (Command σ)) (t : CommandTree (Handler σ)) :
    Except Error (CommandTree (Handler σ)) := do
  t.merge (← Command.treeOf commands)

/-- A tree with some more batches, one merged after another. -/
def withBatches (batches : List (List (Command σ))) (t : CommandTree (Handler σ)) :
    Except Error (CommandTree (Handler σ)) :=
  batches.foldlM (fun t commands => t.withCommands commands) t

theorem withCommands_eq_ok {commands : List (Command σ)} {t u : CommandTree (Handler σ)} :
    t.withCommands commands = .ok u ↔
      ∃ batch, Command.treeOf commands = .ok batch ∧ t.merge batch = .ok u :=
  bind_eq_ok

theorem withBatches_cons {commands : List (Command σ)} {batches : List (List (Command σ))}
    {t v : CommandTree (Handler σ)} :
    t.withBatches (commands :: batches) = .ok v ↔
      ∃ u, t.withCommands commands = .ok u ∧ u.withBatches batches = .ok v := by
  rw [withBatches, List.foldlM_cons, bind_eq_ok]
  rfl

theorem withBatches_append {bs cs : List (List (Command σ))} {t v : CommandTree (Handler σ)} :
    t.withBatches (bs ++ cs) = .ok v ↔
      ∃ u, t.withBatches bs = .ok u ∧ u.withBatches cs = .ok v := by
  rw [withBatches, List.foldlM_append, bind_eq_ok]
  rfl

theorem withBatches_singleton {commands : List (Command σ)} {t u : CommandTree (Handler σ)} :
    t.withBatches [commands] = .ok u ↔ t.withCommands commands = .ok u := by
  rw [withBatches_cons]
  constructor
  · rintro ⟨v, hv, h⟩
    cases h
    exact hv
  · exact fun h => ⟨u, h, rfl⟩

end CommandTree

theorem Shell.withCommands_eq (commands : List (Command σ)) (s : Shell σ) :
    s.withCommands commands =
      (s.root.withCommands commands).map fun root => { s with root } := by
  unfold Shell.withCommands CommandTree.withCommands
  cases Command.treeOf commands with
  | error e => rfl
  | ok batch =>
    simp only [bind, Except.bind]
    cases s.root.merge batch <;> rfl

/-! ## The batches inside a set -/

mutual

/-- The batches that are loaded with a set, its own commands first. -/
def CommandSet.batches : CommandSet σ → List (List (Command σ))
  | ⟨commands, none⟩ => [commands]
  | ⟨commands, some actions⟩ => commands :: LoadAction.allBatches actions

/-- The batches that some actions load, in order. -/
def LoadAction.allBatches : List (LoadAction σ) → List (List (Command σ))
  | [] => []
  | action :: actions => action.batches ++ LoadAction.allBatches actions

/-- The batches that one action loads. -/
def LoadAction.batches : LoadAction σ → List (List (Command σ))
  | .register command => [[command]]
  | .load set => set.batches
  | .fail _ | .setPrompt _ | .addMode _ _ | .observe _ => []

end

mutual

/-- No action of the set reports a failure, and none of a set inside it. -/
def CommandSet.Unfailing : CommandSet σ → Prop
  | ⟨_, none⟩ => True
  | ⟨_, some actions⟩ => LoadAction.AllUnfailing actions

/-- None of some actions reports a failure. -/
def LoadAction.AllUnfailing : List (LoadAction σ) → Prop
  | [] => True
  | action :: actions => action.Unfailing ∧ LoadAction.AllUnfailing actions

/-- An action does not report a failure. -/
def LoadAction.Unfailing : LoadAction σ → Prop
  | .fail _ => False
  | .load set => set.Unfailing
  | .register _ | .setPrompt _ | .addMode _ _ | .observe _ => True

end

/-! ## When loading succeeds -/

/-- A success that leaves the tree `t`. -/
def Loaded.Leaves (l : Loaded σ) (t : CommandTree (Handler σ)) : Prop :=
  l.result = .ok () ∧ l.shell.root = t

/-- **A failure leaves the tree of before.** -/
theorem CommandSet.root_loadInto_of_error (set : CommandSet σ) (s : Shell σ) (world : σ)
    {e : Error} (h : (set.loadInto s world).result = .error e) :
    (set.loadInto s world).shell.root = s.root := by
  obtain ⟨commands, onLoad⟩ := set
  rw [CommandSet.loadInto] at h ⊢
  cases hc : s.withCommands commands with
  | error e => rfl
  | ok loaded =>
    cases onLoad with
    | none => simp [hc] at h
    | some actions =>
      cases hp : LoadAction.performAll loaded world actions with
      | mk result shell world' =>
        cases result with
        | error e => simp only [hp]
        | ok => simp [hc, hp] at h

theorem CommandSet.leaves_loadInto_none {commands : List (Command σ)} {s : Shell σ} {world : σ}
    {t : CommandTree (Handler σ)} :
    (CommandSet.loadInto s world ⟨commands, none⟩).Leaves t ↔
      s.root.withCommands commands = .ok t := by
  rw [CommandSet.loadInto, Shell.withCommands_eq]
  cases s.root.withCommands commands <;> simp [Except.map, Loaded.Leaves]

theorem CommandSet.leaves_loadInto_some {commands : List (Command σ)}
    {actions : List (LoadAction σ)} {s : Shell σ} {world : σ} {t : CommandTree (Handler σ)} :
    (CommandSet.loadInto s world ⟨commands, some actions⟩).Leaves t ↔
      ∃ root, s.root.withCommands commands = .ok root ∧
        (LoadAction.performAll { s with root } world actions).Leaves t := by
  rw [CommandSet.loadInto, Shell.withCommands_eq]
  cases s.root.withCommands commands with
  | error e => simp [Except.map, Loaded.Leaves]
  | ok root =>
    simp only [Except.map, Except.ok.injEq, exists_eq_left']
    cases LoadAction.performAll { s with root } world actions with
    | mk result shell world' => cases result <;> simp [Loaded.Leaves]

theorem LoadAction.leaves_performAll_cons {action : LoadAction σ} {actions : List (LoadAction σ)}
    {s : Shell σ} {world : σ} {t : CommandTree (Handler σ)} :
    (LoadAction.performAll s world (action :: actions)).Leaves t ↔
      ∃ shell world', LoadAction.perform s world action = ⟨.ok (), shell, world'⟩ ∧
        (LoadAction.performAll shell world' actions).Leaves t := by
  rw [LoadAction.performAll]
  cases LoadAction.perform s world action with
  | mk result shell world' => cases result <;> simp [Loaded.Leaves]

theorem LoadAction.leaves_register {command : Command σ} {s : Shell σ} {world : σ}
    {t : CommandTree (Handler σ)} :
    (LoadAction.perform s world (.register command)).Leaves t ↔
      s.root.withCommands [command] = .ok t := by
  rw [LoadAction.perform, Shell.withCommands_eq]
  cases s.root.withCommands [command] <;> simp [Except.map, Loaded.Leaves]

mutual

/-- **A set is loaded with success if no action inside it reports a failure and its batches can be
loaded one after another. It leaves the tree that they make.** -/
theorem CommandSet.leaves_loadInto : ∀ (set : CommandSet σ) (s : Shell σ) (world : σ)
    (t : CommandTree (Handler σ)), (set.loadInto s world).Leaves t ↔
      set.Unfailing ∧ s.root.withBatches set.batches = .ok t
  | ⟨commands, none⟩, s, world, t => by
    rw [CommandSet.leaves_loadInto_none, CommandSet.Unfailing, CommandSet.batches,
      CommandTree.withBatches_singleton, true_and]
  | ⟨commands, some actions⟩, s, world, t => by
    rw [CommandSet.leaves_loadInto_some, CommandSet.Unfailing, CommandSet.batches,
      CommandTree.withBatches_cons]
    have hactions (root : CommandTree (Handler σ)) :=
      LoadAction.leaves_performAll actions { s with root } world t
    simp only [hactions]
    tauto

theorem LoadAction.leaves_performAll : ∀ (actions : List (LoadAction σ)) (s : Shell σ) (world : σ)
    (t : CommandTree (Handler σ)), (LoadAction.performAll s world actions).Leaves t ↔
      LoadAction.AllUnfailing actions ∧ s.root.withBatches (LoadAction.allBatches actions) = .ok t
  | [], s, world, t => by
    simp [LoadAction.performAll, LoadAction.AllUnfailing, LoadAction.allBatches, Loaded.Leaves,
      CommandTree.withBatches, pure, Except.pure]
  | action :: actions, s, world, t => by
    rw [LoadAction.leaves_performAll_cons, LoadAction.AllUnfailing, LoadAction.allBatches,
      CommandTree.withBatches_append]
    constructor
    · rintro ⟨shell, world', hp, h⟩
      have hleaves : (LoadAction.perform s world action).Leaves shell.root := by
        rw [hp]
        exact ⟨rfl, rfl⟩
      obtain ⟨hu, hb⟩ := (LoadAction.leaves_perform action s world _).mp hleaves
      obtain ⟨hus, hbs⟩ := (LoadAction.leaves_performAll actions shell world' t).mp h
      exact ⟨⟨hu, hus⟩, shell.root, hb, hbs⟩
    · rintro ⟨⟨hu, hus⟩, root, hb, hbs⟩
      obtain ⟨hok, hroot⟩ := (LoadAction.leaves_perform action s world root).mpr ⟨hu, hb⟩
      cases hp : LoadAction.perform s world action with
      | mk result shell world' =>
        rw [hp] at hok hroot
        obtain rfl : result = .ok () := hok
        obtain rfl : shell.root = root := hroot
        exact ⟨shell, world', rfl, (LoadAction.leaves_performAll actions shell world' t).mpr
          ⟨hus, hbs⟩⟩

theorem LoadAction.leaves_perform : ∀ (action : LoadAction σ) (s : Shell σ) (world : σ)
    (t : CommandTree (Handler σ)), (LoadAction.perform s world action).Leaves t ↔
      action.Unfailing ∧ s.root.withBatches action.batches = .ok t
  | .fail _ => by
    intro s world t
    simp [LoadAction.perform, LoadAction.Unfailing, Loaded.Leaves]
  | .setPrompt _ | .addMode _ _ | .observe _ => by
    intro s world t
    simp [LoadAction.perform, LoadAction.Unfailing, LoadAction.batches, Loaded.Leaves,
      CommandTree.withBatches, Shell.addMode, pure, Except.pure]
  | .load set => by
    intro s world t
    rw [LoadAction.perform, LoadAction.Unfailing, LoadAction.batches]
    exact CommandSet.leaves_loadInto set s world t
  | .register command => by
    intro s world t
    rw [LoadAction.leaves_register, LoadAction.Unfailing, LoadAction.batches,
      CommandTree.withBatches_singleton, true_and]

end

end Console
