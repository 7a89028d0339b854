import Console.CommandSet
import Console.Spec.Compile
import Console.Tree.Build
import Console.Tree.Merge

/-!
# Loading commands

A command set is loaded as a transaction: its commands are built into a tree of their own, which is
merged into the shell's tree; then the set's actions are done. If anything fails, the shell has the
tree that it had before; what else the actions changed stays.

* `Shell.withCommands`: a shell with some more commands;
* `CommandSet.loadInto`: the transaction, with sets loaded by actions inside it;
* `Shell.load`, `Shell.register`.
-/

namespace Console

variable {σ : Type}

/-- What a transaction leaves. -/
structure Loaded (σ : Type) where
  result : Except Error Unit
  shell : Shell σ
  world : σ

/-- The tree of some commands. -/
def Command.treeOf (commands : List (Command σ)) : Except Error (CommandTree (Handler σ)) :=
  commands.foldlM (fun tree c => return tree.build (← compile c.spec c.help) c.handler c.hidden)
    .root

/-- A shell with some more commands. -/
def Shell.withCommands (commands : List (Command σ)) (s : Shell σ) : Except Error (Shell σ) := do
  let batch ← Command.treeOf commands
  let root ← s.root.merge batch
  return { s with root }

mutual

/-- Loads a set: its commands, then its actions. -/
def CommandSet.loadInto (s : Shell σ) (world : σ) : CommandSet σ → Loaded σ
  | ⟨commands, onLoad⟩ =>
    match s.withCommands commands with
    | .error e => ⟨.error e, s, world⟩
    | .ok loaded =>
      match onLoad with
      | none => ⟨.ok (), loaded, world⟩
      | some actions =>
        match LoadAction.performAll loaded world actions with
        | ⟨.ok (), shell, world⟩ => ⟨.ok (), shell, world⟩
        | ⟨.error e, shell, world⟩ => ⟨.error e, { shell with root := s.root }, world⟩

/-- Does some actions in order, up to the first that fails. -/
def LoadAction.performAll (s : Shell σ) (world : σ) : List (LoadAction σ) → Loaded σ
  | [] => ⟨.ok (), s, world⟩
  | action :: actions =>
    match LoadAction.perform s world action with
    | ⟨.ok (), shell, world⟩ => LoadAction.performAll shell world actions
    | failed => failed

/-- Does one action. -/
def LoadAction.perform (s : Shell σ) (world : σ) : LoadAction σ → Loaded σ
  | .fail text => ⟨.error (.command text), s, world⟩
  | .setPrompt prompt => ⟨.ok (), { s with prompt }, world⟩
  | .addMode name mode => ⟨.ok (), s.addMode name mode, world⟩
  | .register command =>
    match s.withCommands [command] with
    | .ok shell => ⟨.ok (), shell, world⟩
    | .error e => ⟨.error e, s, world⟩
  | .load set => CommandSet.loadInto s world set
  | .observe look => ⟨.ok (), s, look s world⟩

end

namespace Shell

/-- Loads a set. -/
def load (s : Shell σ) (set : CommandSet σ) (world : σ) : Loaded σ := set.loadInto s world

/-- Loads one command. -/
def register (s : Shell σ) (command : Command σ) : Except Error (Shell σ) :=
  s.withCommands [command]

end Shell

end Console
