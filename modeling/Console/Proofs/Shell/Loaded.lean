import Console.Proofs.Command
import Console.Proofs.Shell.Batches
import Console.Proofs.Tree.Merge

/-!
# Shells reached by loading

* `CommandTree.Gains`: a tree that has become another one by gaining some commands;
* **`gains_withCommands`**: loading commands makes a tree gain them;
* `CommandSet.brings_eq_flatten`: what a set brings are its batches;
* `Shell.LoadedWith`, **`Shell.LoadedWith.gains`**: the shells reached from an empty one by loading
  sets, each with success, and the commands that their trees have gained.
-/

namespace Console

variable {σ : Type}

namespace CommandTree

/-- The tree `u` is what the tree `t` becomes when it gains some commands in order: all of them
compile, and `u` has at every path the labels of `t` united with theirs. -/
structure Gains (t : CommandTree (Handler σ)) (cs : List (Command σ))
    (u : CommandTree (Handler σ)) : Prop where
  sound : u.Sound
  element : u.element = t.element
  compiles : ∀ c ∈ cs, ∃ tokens, compile c.spec c.help = .ok tokens
  labelAt : ∀ p ≠ [], u.labelAt p =
    Label.joined (t.labelAt p) (Label.all (cs.flatMap (·.labels p)))

theorem Gains.refl {t : CommandTree (Handler σ)} (ht : t.Sound) : Gains t [] t :=
  ⟨ht, rfl, fun _ hc => absurd hc List.not_mem_nil, fun _ _ => (Label.joined_none_right _).symm⟩

theorem Gains.trans {t u v : CommandTree (Handler σ)} {cs ds : List (Command σ)}
    (h : Gains t cs u) (k : Gains u ds v) : Gains t (cs ++ ds) v where
  sound := k.sound
  element := k.element.trans h.element
  compiles c hc := (List.mem_append.mp hc).elim (h.compiles c) (k.compiles c)
  labelAt p hp := by
    rw [k.labelAt p hp, h.labelAt p hp, List.flatMap_append, Label.all_append, Label.joined_assoc]

theorem Gains.keyword {t u : CommandTree (Handler σ)} {cs : List (Command σ)}
    (h : Gains t cs u) : u.keyword = t.keyword :=
  congrArg Element.keyword h.element

theorem Gains.labelAt_root {t : CommandTree (Handler σ)} {cs : List (Command σ)}
    (h : Gains .root cs t) {p : List String} (hp : p ≠ []) :
    t.labelAt p = Label.all (cs.flatMap (·.labels p)) := by
  rw [h.labelAt p hp, CommandTree.root, labelAt_leaf _ _ hp, Label.joined_none_left]

theorem gains_build {t : CommandTree (Handler σ)} (ht : t.Sound) {c : Command σ}
    {tokens : List Token} (hc : compile c.spec c.help = .ok tokens) :
    Gains t [c] (t.build tokens c.handler c.hidden) where
  sound := sound_build tokens c.handler c.hidden ht
  element := element_build tokens c.handler c.hidden t
  compiles d hd := by
    rw [List.mem_singleton.mp hd]
    exact ⟨tokens, hc⟩
  labelAt p hp := by
    rw [labelAt_build _ _ _ _ hp, List.flatMap_singleton, Command.labels_of_compile hc,
      Token.labels]

theorem gains_buildAll {cs : List (Command σ)} {t u : CommandTree (Handler σ)} (ht : t.Sound)
    (h : t.buildAll cs = .ok u) : Gains t cs u := by
  induction cs generalizing t with
  | nil =>
    cases h
    exact .refl ht
  | cons c cs ih =>
    cases hc : compile c.spec c.help with
    | error e =>
      rw [buildAll_cons_of_error hc] at h
      cases h
    | ok tokens =>
      rw [buildAll_cons_of_ok hc] at h
      have hb := gains_build ht hc
      exact hb.trans (ih hb.sound h)

end CommandTree

open CommandTree

/-! ## Loading commands -/

theorem gains_treeOf {cs : List (Command σ)} {t : CommandTree (Handler σ)}
    (h : Command.treeOf cs = .ok t) : Gains root cs t :=
  gains_buildAll sound_root h

/-- **Loading commands makes a tree gain them.** -/
theorem gains_withCommands {cs : List (Command σ)} {t u : CommandTree (Handler σ)} (ht : t.Sound)
    (he : t.element = Element.root) (h : t.withCommands cs = .ok u) : Gains t cs u := by
  obtain ⟨batch, hb, hm⟩ := withCommands_eq_ok.mp h
  have hg := gains_treeOf hb
  obtain ⟨v, hv, hs, hve, hl⟩ := exists_merge batch t ht hg.sound
    ((congrArg Element.keyword he).trans hg.keyword.symm)
  obtain rfl : v = u := Except.ok.inj (hv.symm.trans hm)
  refine ⟨hs, hve, hg.compiles, fun p hp => ?_⟩
  rw [hl, hg.labelAt_root hp]

theorem gains_withBatches {batches : List (List (Command σ))} {t u : CommandTree (Handler σ)}
    (ht : t.Sound) (he : t.element = Element.root) (h : t.withBatches batches = .ok u) :
    Gains t batches.flatten u := by
  induction batches generalizing t with
  | nil =>
    cases h
    exact .refl ht
  | cons cs batches ih =>
    obtain ⟨v, hv, h⟩ := withBatches_cons.mp h
    have hg := gains_withCommands ht he hv
    exact hg.trans (ih hg.sound (hg.element.trans he) h)

/-! ## Loading sets -/

mutual

theorem CommandSet.brings_eq_flatten : ∀ set : CommandSet σ, set.brings = set.batches.flatten
  | ⟨commands, none⟩ => by
    rw [CommandSet.brings, CommandSet.batches, List.flatten_singleton]
  | ⟨commands, some actions⟩ => by
    rw [CommandSet.brings, CommandSet.batches, List.flatten_cons,
      LoadAction.bringAll_eq_flatten actions]

theorem LoadAction.bringAll_eq_flatten : ∀ actions : List (LoadAction σ),
    LoadAction.bringAll actions = (LoadAction.allBatches actions).flatten
  | [] => rfl
  | action :: actions => by
    rw [LoadAction.bringAll, LoadAction.allBatches, List.flatten_append,
      LoadAction.brings_eq_flatten action, LoadAction.bringAll_eq_flatten actions]

theorem LoadAction.brings_eq_flatten : ∀ action : LoadAction σ,
    action.brings = action.batches.flatten
  | .register _ | .fail _ | .setPrompt _ | .addMode _ _ | .observe _ => by
    simp [LoadAction.brings, LoadAction.batches]
  | .load set => by
    rw [LoadAction.brings, LoadAction.batches, CommandSet.brings_eq_flatten set]

end

theorem CommandSet.withBatches_of_load {set : CommandSet σ} {s : Shell σ} {world : σ}
    (h : (s.load set world).result = .ok ()) :
    s.root.withBatches set.batches = .ok (s.load set world).shell.root :=
  ((CommandSet.leaves_loadInto set s world _).mp ⟨h, rfl⟩).2

/-- The shells that an empty one becomes by loading some sets in order, each with success. -/
inductive Shell.LoadedWith (prompt : String) : List (CommandSet σ) → Shell σ → Prop where
  | empty : LoadedWith prompt [] (Shell.empty prompt)
  | load {sets : List (CommandSet σ)} {s : Shell σ} (set : CommandSet σ) (world : σ)
    (before : LoadedWith prompt sets s) (success : (s.load set world).result = .ok ()) :
    LoadedWith prompt (sets ++ [set]) (s.load set world).shell

/-- **The tree of a shell has gained what was loaded into it.** -/
theorem Shell.LoadedWith.gains {prompt : String} {sets : List (CommandSet σ)} {s : Shell σ}
    (h : Shell.LoadedWith prompt sets s) :
    Gains .root (sets.flatMap CommandSet.brings) s.root := by
  induction h with
  | empty => exact .refl sound_root
  | load set world _ success ih =>
    rw [List.flatMap_append, List.flatMap_singleton, CommandSet.brings_eq_flatten]
    exact ih.trans (gains_withBatches ih.sound ih.element (CommandSet.withBatches_of_load success))

/-- A command that does nothing. -/
def Command.idle (spec : String) (hidden : Bool) (serial : ℕ) : Command Unit :=
  ⟨spec, [], hidden, ⟨spec, serial, fun _ world => .finish (.ok .continue) world⟩⟩

end Console
