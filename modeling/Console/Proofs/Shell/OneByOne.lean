import Console.Proofs.Shell.Loaded
import Console.Proofs.Tree.Equality

/-!
# Commands one by one

A batch is built into a tree of its own, which is merged into the tree of the shell. The result is
the tree to which the commands of the batch are added one after another, without a batch. Below the
root this is a matter of labels; the root is united by itself, because a specification may denote
the empty path.

* `Label.top`, `CommandTree.exists_label_buildAll`: what commands bring to the root;
* `CommandTree.Rooted`: the trees that shells have;
* **`withCommands_eq_buildAll`**: a merged batch and its commands added one by one;
* `withBatches_eq_buildAll`, **`Shell.LoadedWith.buildAll`**: the tree of a loaded shell is what all
  its commands make of the empty tree;
* **`Shell.load_eq_one_by_one`**: loading a set, registering its commands and adding them directly.
-/

namespace Console

universe u

variable {η : Type u} {σ : Type}

/-! ## The root -/

/-- What is brought to the root of a tree: perhaps a handler, and nothing else. -/
def Label.top (handler : Option η) : Label η := ⟨Element.root, handler, true⟩

theorem Label.union_top_top (l : Label η) (g h : Option η) :
    (l.union (.top g)).union (.top h) = l.union (.top (h.or g)) := by
  simp [union, top, Option.or_assoc]

namespace CommandTree

theorem label_attach (handler : η) (hidden : Bool) (es : List Element) (t : CommandTree η) :
    (attach handler hidden es t).label =
      t.label.union (.top (if es = [] then some handler else none)) := by
  cases t
  cases es <;> simp [attach, label, element, CommandTree.handler, CommandTree.hidden, Label.union,
    Label.top]

theorem label_build (tokens : List Token) (handler : η) (hidden : Bool) (t : CommandTree η) :
    (t.build tokens handler hidden).label =
      t.label.union (.top (if [] ∈ Token.paths tokens then some handler else none)) := by
  unfold build
  induction Token.paths tokens generalizing t with
  | nil => simp [Label.union, Label.top]
  | cons es paths ih =>
    rw [List.foldl_cons, ih, label_attach, Label.union_top_top]
    by_cases hes : es = [] <;> by_cases hpaths : [] ∈ paths <;>
      simp [hes, hpaths, Ne.symm]

theorem exists_label_buildAll (cs : List (Command σ)) :
    ∃ handler, ∀ t u : CommandTree (Handler σ), t.buildAll cs = .ok u →
      u.label = t.label.union (.top handler) := by
  induction cs with
  | nil =>
    refine ⟨none, fun t u h => ?_⟩
    cases h
    simp [Label.union, Label.top]
  | cons c cs ih =>
    obtain ⟨handler, ih⟩ := ih
    cases hc : compile c.spec c.help with
    | error e =>
      refine ⟨none, fun t u h => ?_⟩
      rw [buildAll_cons_of_error hc] at h
      cases h
    | ok tokens =>
      refine ⟨handler.or (if [] ∈ Token.paths tokens then some c.handler else none),
        fun t u h => ?_⟩
      rw [buildAll_cons_of_ok hc] at h
      rw [ih _ _ h, label_build, Label.union_top_top]

/-! ## One by one -/

theorem buildAll_error {cs : List (Command σ)} {t : CommandTree (Handler σ)} {e : Error}
    (h : t.buildAll cs = .error e) (u : CommandTree (Handler σ)) : u.buildAll cs = .error e := by
  induction cs generalizing t u with
  | nil => cases h
  | cons c cs ih =>
    cases hc : compile c.spec c.help with
    | error e' =>
      rw [buildAll_cons_of_error hc] at h ⊢
      exact h
    | ok tokens =>
      rw [buildAll_cons_of_ok hc] at h ⊢
      exact ih h _

theorem exists_buildAll {cs : List (Command σ)}
    (h : ∀ c ∈ cs, ∃ tokens, compile c.spec c.help = .ok tokens) (t : CommandTree (Handler σ)) :
    ∃ u, t.buildAll cs = .ok u := by
  induction cs generalizing t with
  | nil => exact ⟨t, rfl⟩
  | cons c cs ih =>
    obtain ⟨tokens, hc⟩ := h c List.mem_cons_self
    rw [buildAll_cons_of_ok hc]
    exact ih (fun d hd => h d (List.mem_cons_of_mem c hd)) _

theorem buildAll_append (cs ds : List (Command σ)) (t : CommandTree (Handler σ)) :
    t.buildAll (cs ++ ds) = t.buildAll cs >>= fun u => u.buildAll ds :=
  List.foldlM_append

/-- The trees that shells have. -/
structure Rooted (t : CommandTree (Handler σ)) : Prop where
  sound : t.Sound
  element : t.element = Element.root
  hidden : t.hidden = false

theorem rooted_root : Rooted (root : CommandTree (Handler σ)) := ⟨sound_root, rfl, rfl⟩

theorem Rooted.buildAll {t u : CommandTree (Handler σ)} (ht : t.Rooted) {cs : List (Command σ)}
    (h : t.buildAll cs = .ok u) : u.Rooted := by
  have hg := gains_buildAll ht.sound h
  obtain ⟨handler, hlabel⟩ := exists_label_buildAll cs
  refine ⟨hg.sound, hg.element.trans ht.element, ?_⟩
  have htop : u.hidden = (t.hidden && true) := congrArg Label.hidden (hlabel t u h)
  rw [htop, ht.hidden, Bool.false_and]

/-- **A batch that is built apart and merged does what its commands do one by one.** -/
theorem withCommands_eq_buildAll {t : CommandTree (Handler σ)} (ht : t.Rooted)
    (cs : List (Command σ)) : t.withCommands cs = t.buildAll cs := by
  rw [withCommands, Command.treeOf_eq_buildAll]
  cases hb : (root : CommandTree (Handler σ)).buildAll cs with
  | error e =>
    rw [buildAll_error hb t]
    rfl
  | ok batch =>
    have hbatch : Gains root cs batch := gains_buildAll sound_root hb
    obtain ⟨u, hu⟩ := exists_buildAll hbatch.compiles t
    have hgains := gains_buildAll ht.sound hu
    obtain ⟨v, hv, hsound, -, hlabels⟩ := exists_merge batch t ht.sound hbatch.sound
      ((congrArg Element.keyword ht.element).trans hbatch.keyword.symm)
    obtain ⟨handler, htop⟩ := exists_label_buildAll cs
    -- The fresh root of a batch is not hidden, so that a merge would uncover a hidden root; but no
    -- root of a shell is hidden.
    have hroot : t.label.union batch.label = u.label := by
      have hhidden : t.label.hidden = false := ht.hidden
      have hempty : (root : CommandTree (Handler σ)).label = ⟨Element.root, none, false⟩ := rfl
      simp [htop t u hu, htop root batch hb, hempty, Label.union, Label.top, hhidden]
    have huv : v = u := by
      refine ext_of_labelAt v u hsound hgains.sound fun p => ?_
      rw [hlabels]
      cases p with
      | nil => rw [labelAt_nil, labelAt_nil, labelAt_nil, Label.joined_some, hroot]
      | cons k p =>
        have hp : k :: p ≠ [] := List.cons_ne_nil k p
        rw [hgains.labelAt _ hp, hbatch.labelAt_root hp]
    rw [hu, ← huv]
    exact hv

theorem withBatches_eq_buildAll {t : CommandTree (Handler σ)} (ht : t.Rooted)
    (batches : List (List (Command σ))) : t.withBatches batches = t.buildAll batches.flatten := by
  induction batches generalizing t with
  | nil => rfl
  | cons cs batches ih =>
    have hcs := withCommands_eq_buildAll ht cs
    rw [withBatches, List.foldlM_cons, List.flatten_cons, hcs, buildAll_append]
    cases h : t.buildAll cs with
    | error e => rfl
    | ok u => exact ih (ht.buildAll h)

end CommandTree

open CommandTree

/-! ## Shells -/

/-- **The tree of a loaded shell is what all its commands make of the empty tree.** -/
theorem Shell.LoadedWith.buildAll {prompt : String} {sets : List (CommandSet σ)} {s : Shell σ}
    (h : Shell.LoadedWith prompt sets s) :
    CommandTree.root.buildAll (sets.flatMap CommandSet.brings) = .ok s.root := by
  induction h with
  | empty => rfl
  | @load sets s set world _ success ih =>
    have hs : s.root.Rooted := rooted_root.buildAll ih
    have hset := CommandSet.withBatches_of_load success
    rw [withBatches_eq_buildAll hs, ← CommandSet.brings_eq_flatten] at hset
    rw [List.flatMap_append, List.flatMap_singleton, buildAll_append, ih]
    exact hset

theorem Shell.LoadedWith.rooted {prompt : String} {sets : List (CommandSet σ)} {s : Shell σ}
    (h : Shell.LoadedWith prompt sets s) : s.root.Rooted :=
  rooted_root.buildAll h.buildAll

namespace Shell

theorem foldlM_register {s : Shell σ} (hs : s.root.Rooted) (cs : List (Command σ)) :
    cs.foldlM register s = (s.root.buildAll cs).map fun root => { s with root } := by
  induction cs generalizing s with
  | nil =>
    cases s
    rfl
  | cons c cs ih =>
    have hc : register s c = (s.root.buildAll [c]).map fun root => { s with root } := by
      rw [register, Shell.withCommands_eq, withCommands_eq_buildAll hs]
    have hall : s.root.buildAll (c :: cs) = s.root.buildAll [c] >>= fun u => u.buildAll cs :=
      buildAll_append [c] cs s.root
    rw [List.foldlM_cons, hc, hall]
    cases h : s.root.buildAll [c] with
    | error e => rfl
    | ok t => exact ih (s := { s with root := t }) (hs.buildAll h)

theorem exists_load {s : Shell σ} (hs : s.root.Rooted) {set : CommandSet σ}
    (hplain : set.onLoad = none)
    (hset : ∀ c ∈ set.commands, ∃ tokens, compile c.spec c.help = .ok tokens) (world : σ) :
    ∃ t, s.root.buildAll set.commands = .ok t ∧
      s.load set world = ⟨.ok (), { s with root := t }, world⟩ := by
  obtain ⟨commands, onLoad⟩ := set
  obtain rfl : onLoad = none := hplain
  obtain ⟨t, ht⟩ := exists_buildAll hset s.root
  refine ⟨t, ht, ?_⟩
  rw [load, CommandSet.loadInto, Shell.withCommands_eq, withCommands_eq_buildAll hs, ht]
  rfl

/-- **Batches do not show.** A shell reached by loading gets the same tree from a set, from the
commands of the set registered one by one, and from these commands added to its tree directly. -/
theorem load_eq_one_by_one {prompt : String} {sets : List (CommandSet σ)} {s : Shell σ}
    (hs : Shell.LoadedWith prompt sets s) {set : CommandSet σ} (hplain : set.onLoad = none)
    (hset : ∀ c ∈ set.commands, ∃ tokens, compile c.spec c.help = .ok tokens) (world : σ) :
    ∃ t, s.root.buildAll set.commands = .ok t ∧
      s.load set world = ⟨.ok (), { s with root := t }, world⟩ ∧
      set.commands.foldlM register s = .ok { s with root := t } := by
  obtain ⟨t, ht, hload⟩ := exists_load hs.rooted hplain hset world
  refine ⟨t, ht, hload, ?_⟩
  rw [foldlM_register hs.rooted, ht]
  rfl

/-- A shell with two paths. -/
def ofShow : Shell Unit :=
  ((Shell.empty ">").load (.ofList [.idle "show (ip|version)" false 0]) ()).shell

/-- A set with paths in common with `ofShow`; its last command also denotes the empty path. -/
def overShow : CommandSet Unit :=
  .ofList [.idle "show version" true 1, .idle "show \x7bip|all\x7d <1-9>" true 2,
    .idle "(quit|)" false 3]

theorem load_eq_one_by_one_overShow :
    Shell.LoadedWith ">" [.ofList [.idle "show (ip|version)" false 0]] ofShow ∧
      overShow.onLoad = none ∧
      (∀ c ∈ overShow.commands, ∃ tokens, compile c.spec c.help = .ok tokens) ∧
      ∃ t, ofShow.root.buildAll overShow.commands = .ok t ∧
        ofShow.load overShow () = ⟨.ok (), { ofShow with root := t }, ()⟩ ∧
        overShow.commands.foldlM register ofShow = .ok { ofShow with root := t } := by
  have hs : Shell.LoadedWith ">" [.ofList [.idle "show (ip|version)" false 0]] ofShow :=
    .load _ () .empty (by decide +kernel)
  have hok : ∀ c ∈ overShow.commands, (compile c.spec c.help).isOk = true := by
    decide +kernel
  have hset : ∀ c ∈ overShow.commands,
      ∃ tokens, compile c.spec c.help = .ok tokens := by
    intro c hc
    have := hok c hc
    cases h : compile c.spec c.help with
    | error e => simp [h, Except.isOk, Except.toBool] at this
    | ok tokens => exact ⟨tokens, rfl⟩
  exact ⟨hs, rfl, hset, load_eq_one_by_one hs rfl hset ()⟩

end Shell

end Console
