import Console.Proofs.Shell.Loaded

/-!
# Loading is a transaction

Actions of a set may load further sets, whose actions may load others. However deep this goes, a
failure leaves the tree that was there before the outermost set, and a success leaves the tree that
all the batches make without any action.

* `Shell.loadEach`: sets loaded one after another;
* **`Shell.load_transaction`**: what a failure and what a success leave.
-/

namespace Console

variable {σ : Type}

/-! ## Batches as sets -/

theorem LoadAction.allUnfailing_plain (batches : List (List (Command σ))) :
    AllUnfailing ((batches.map fun commands => ⟨commands, none⟩).map LoadAction.load) := by
  induction batches with
  | nil => trivial
  | cons commands batches ih => exact ⟨trivial, ih⟩

theorem LoadAction.allBatches_plain (batches : List (List (Command σ))) :
    allBatches ((batches.map fun commands => ⟨commands, none⟩).map LoadAction.load) = batches := by
  induction batches with
  | nil => rfl
  | cons commands batches ih =>
    simp only [List.map_cons, allBatches, LoadAction.batches, CommandSet.batches]
    rw [ih, List.singleton_append]

namespace Shell

/-- Loads some sets one after another, up to the first that fails. -/
def loadEach (s : Shell σ) (sets : List (CommandSet σ)) (world : σ) : Loaded σ :=
  LoadAction.performAll s world (sets.map .load)

theorem leaves_loadEach {s : Shell σ} {batches : List (List (Command σ))} {world : σ}
    {t : CommandTree (Handler σ)} :
    (s.loadEach (batches.map fun commands => ⟨commands, none⟩) world).Leaves t ↔
      s.root.withBatches batches = .ok t := by
  rw [loadEach, LoadAction.leaves_performAll, LoadAction.allBatches_plain]
  exact and_iff_right (LoadAction.allUnfailing_plain batches)

/-- **Loading is a transaction at any depth of actions.** After a failure the tree is the one of
before. If the first command of the outermost set that is wrong is `c`, then its error is reported
and nothing at all has changed, so that no action was done. Loading succeeds if no action inside the
set reports a failure and all its batches can be loaded in order without actions; these leave the
same tree. -/
theorem load_transaction (s : Shell σ) (set : CommandSet σ) (world : σ) :
    (∀ e, (s.load set world).result = .error e → (s.load set world).shell.root = s.root) ∧
      (∀ before c after e, set.commands = before ++ c :: after →
        (∀ d ∈ before, ∃ tokens, compile d.spec d.help = .ok tokens) →
        compile c.spec c.help = .error e → s.load set world = ⟨.error e, s, world⟩) ∧
      ∀ t, (s.load set world).Leaves t ↔ set.Unfailing ∧
        (s.loadEach (set.batches.map fun commands => ⟨commands, none⟩) world).Leaves t := by
  refine ⟨fun e h => ?_, fun before c after e hset hbefore hc => ?_, fun t => ?_⟩
  · exact CommandSet.root_loadInto_of_error set s world h
  · obtain ⟨commands, onLoad⟩ := set
    obtain rfl : commands = before ++ c :: after := hset
    have htree : Command.treeOf (before ++ c :: after) = .error e :=
      CommandTree.buildAll_eq_error hbefore hc CommandTree.root
    have hs : s.withCommands (before ++ c :: after) = .error e := by
      rw [withCommands, htree]
      rfl
    rw [load, CommandSet.loadInto, hs]
  · rw [load, CommandSet.leaves_loadInto, leaves_loadEach]

end Shell

/-- A set with two commands; its actions load a set with an action of its own and then do `last`. -/
def CommandSet.nested (spec : String) (last : LoadAction Unit) : CommandSet Unit :=
  ⟨[.idle "show version" false 0, .idle spec false 1],
    some [.setPrompt "#", .load ⟨[.idle "show ip" false 2],
      some [.addMode "config" (.empty "config>"), .register (.idle "show version" true 3)]⟩, last]⟩

theorem Shell.load_transaction_nested :
    -- The last action fails after an inner set was loaded.
    ((Shell.empty ">").load (.nested "quit" (.fail "no")) ()).result = .error (.command "no") ∧
      ((Shell.empty ">").load (.nested "quit" (.fail "no")) ()).shell.root =
        (Shell.empty ">" : Shell Unit).root ∧
      -- A command of the outermost set is wrong.
      compile "quit )" [] = .error (.unbalanced "quit )") ∧
      (Shell.empty ">").load (.nested "quit )" (.setPrompt "$")) () =
        ⟨.error (.unbalanced "quit )"), Shell.empty ">", ()⟩ ∧
      -- All goes well.
      ((Shell.empty ">").load (.nested "quit" (.setPrompt "$")) ()).result = .ok () ∧
      ((Shell.empty ">").loadEach ((CommandSet.nested "quit" (.setPrompt "$")).batches.map
        fun commands => ⟨commands, none⟩) ()).Leaves
        ((Shell.empty ">").load (.nested "quit" (.setPrompt "$")) ()).shell.root := by
  have hfail : ((Shell.empty ">").load (.nested "quit" (.fail "no")) ()).result =
      .error (.command "no") := by
    decide +kernel
  have hversion : ∀ d ∈ [Command.idle "show version" false 0],
      ∃ tokens, compile d.spec d.help = .ok tokens := by
    intro d hd
    rw [List.mem_singleton.mp hd]
    exact ⟨[.element (.ofArgspec "show" "" false), .element (.ofArgspec "version" "" false)],
      by decide +kernel⟩
  have hquit : compile "quit )" [] = .error (.unbalanced "quit )") := by decide +kernel
  have hok : ((Shell.empty ">").load (.nested "quit" (.setPrompt "$")) ()).result = .ok () := by
    decide +kernel
  obtain ⟨hroot, -, -⟩ := load_transaction (Shell.empty ">") (.nested "quit" (.fail "no")) ()
  obtain ⟨-, herror, -⟩ := load_transaction (Shell.empty ">") (.nested "quit )" (.setPrompt "$")) ()
  obtain ⟨-, -, hleaves⟩ := load_transaction (Shell.empty ">") (.nested "quit" (.setPrompt "$")) ()
  exact ⟨hfail, hroot _ hfail, hquit, herror [_] _ [] _ rfl hversion hquit, hok,
    ((hleaves _).mp ⟨hok, rfl⟩).2⟩

end Console
