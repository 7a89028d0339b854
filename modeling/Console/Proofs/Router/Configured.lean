import Console.Proofs.Router.Dispatch
import Console.Proofs.Shell.Timeline

/-!
# The device is configured from the config shell only

A run of the router, seen at each step of its stack machine. One step is one line of the shell on
top.

* `StackMachine.Accepts`, `StackMachine.HasOpen`: a line that the shell on top accepts at some time,
  and shells that are open then;
* `Router.Follows`: the open shells are levels of the router, and the device is as it was told;
* **`Levels.world_step`**, **`Levels.follows_step`**: one step;
* **`Levels.follows_after`**: any number of steps;
* `Router.Opened`, **`Levels.opened_of_after`**: how the config shell was reached;
* **`configured_by_lines`**: the device during a run, and after it.
-/

namespace Console

namespace StackMachine

variable {σ : Type}

/-- After `n` steps these shells are open, and the next step dispatches a line to the one on top
that resolves to this path. -/
def Accepts (m : StackMachine σ) (n : ℕ) (top : Shell σ) (below : List (Shell σ))
    (path : List String) : Prop :=
  ∃ k line args, m.after n = some k ∧ k.stack = top :: below ∧ k.heard? = some line ∧
    top.resolve? line = some (path, args)

/-- After `n` steps these shells are open, and perhaps others above them. -/
def HasOpen (m : StackMachine σ) (n : ℕ) (shells : List (Shell σ)) : Prop :=
  ∃ k, m.after n = some k ∧ shells <:+ k.stack

end StackMachine

namespace Router

open StackMachine

variable {hostname : String} {exec enable config : Shell Device}

/-- The open shells are the exec shell and those that are entered from it, and the device is
configured so. -/
structure Follows (exec enable config : Shell Device) (c : Configuration)
    (k : StackMachine Device) : Prop where
  stack : k.stack <:+ [config, enable, exec]
  world : k.view.world.Shows c

theorem suffix_cases {stack : List (Shell Device)} (h : stack <:+ [config, enable, exec]) :
    stack = [config, enable, exec] ∨ stack = [enable, exec] ∨ stack = [exec] ∨ stack = [] := by
  simpa only [List.suffix_cons_iff, List.suffix_nil] using h

/-- The configuration after the next step: the config shell is told what it dispatches. -/
def toldNext (config : Shell Device) (c : Configuration) (k : StackMachine Device) :
    Configuration :=
  .toldAll config c (if k.stack.length = 3 then k.heard? else none).toList

section

variable {c : Configuration} {k : StackMachine Device}

theorem toldNext_of_none (hline : k.heard? = none) : toldNext config c k = c := by
  rw [toldNext, hline, ite_self, Option.toList_none, Configuration.toldAll_nil]

theorem toldNext_of_ne (hs : k.stack.length ≠ 3) : toldNext config c k = c := by
  rw [toldNext, if_neg hs, Option.toList_none, Configuration.toldAll_nil]

theorem toldNext_of_some (hs : k.stack.length = 3) {line : String} (hline : k.heard? = some line) :
    toldNext config c k = c.told (config.resolve? line) := by
  rw [toldNext, if_pos hs, hline, Option.toList_some, Configuration.toldAll_singleton]

end

/-- **A step leaves the device as the config shell is told,** and as it is while that shell is not
open. -/
theorem Levels.world_step (hl : Levels hostname exec enable config) {c : Configuration}
    {k : StackMachine Device} (hk : Follows exec enable config c k) :
    (seen k.step).world.Shows (toldNext config c k) ∧
      (k.stack.length < 3 → (seen k.step).world = k.view.world) := by
  cases hline : k.heard? with
  | none =>
    obtain ⟨hworld, -⟩ := step_of_none hline
    rw [hworld, toldNext_of_none hline]
    exact ⟨hk.world, fun _ => rfl⟩
  | some line =>
    rcases suffix_cases hk.stack with hs | hs | hs | hs
    · have hdepth : k.stack.length = 3 := congrArg List.length hs
      rw [world_step_of_some hs hline, toldNext_of_some hdepth hline]
      exact ⟨(config_dispatch hl.config_root hk.world line _).1, fun h => absurd hdepth h.ne⟩
    · have hdepth : k.stack.length = 2 := congrArg List.length hs
      rw [world_step_of_some hs hline, (hl.enable_dispatch line _ _).1,
        toldNext_of_ne (by rw [hdepth]; decide)]
      exact ⟨hk.world, fun _ => rfl⟩
    · have hdepth : k.stack.length = 1 := congrArg List.length hs
      rw [world_step_of_some hs hline, (hl.exec_dispatch line _ _).1,
        toldNext_of_ne (by rw [hdepth]; decide)]
      exact ⟨hk.world, fun _ => rfl⟩
    · rw [heard?, hs] at hline
      cases hline

/-- **A step keeps the open shells in their order.** -/
theorem Levels.follows_step (hl : Levels hostname exec enable config) {c : Configuration}
    {k k' : StackMachine Device} (hk : Follows exec enable config c k) (hstep : k.step = .inr k') :
    Follows exec enable config (toldNext config c k) k' := by
  have hworld : k'.view.world.Shows (toldNext config c k) := by
    have := (hl.world_step hk).1
    rwa [hstep] at this
  refine ⟨?_, hworld⟩
  obtain ⟨top, below, hs⟩ := exists_stack_of_step hstep
  have hsuffix : top :: below <:+ [config, enable, exec] := hs ▸ hk.stack
  obtain hsame | hclosed | ⟨line, name, mode, -, hresult, hmode, hopened⟩ := stack_step hs hstep
  · rwa [hsame]
  · rw [hclosed]
    exact (List.suffix_cons top below).trans hsuffix
  · rw [hopened]
    rcases suffix_cases hsuffix with h | h | h | h
    · cases h
      exact absurd hresult ((config_dispatch hl.config_root hk.world line _).2 name)
    · cases h
      obtain ⟨rfl, -⟩ := (hl.enable_dispatch line _ _).2 name hresult
      obtain rfl : mode = config := Option.some.inj (hmode.symm.trans hl.config_mode)
      exact List.suffix_rfl
    · cases h
      obtain ⟨rfl, -⟩ := (hl.exec_dispatch line _ _).2 name hresult
      obtain rfl : mode = enable := Option.some.inj (hmode.symm.trans hl.enable_mode)
      exact List.suffix_cons config _
    · cases h

theorem toldAll_lines_succ {m k : StackMachine Device} {n : ℕ} (h : m.after n = some k)
    (config : Shell Device) (c : Configuration) :
    Configuration.toldAll config c (m.lines 3 (n + 1)) =
      toldNext config (.toldAll config c (m.lines 3 n)) k := by
  rw [lines_succ h, Configuration.toldAll_append, toldNext]

/-- **After any number of steps** the device is as the config shell was told. -/
theorem Levels.follows_after (hl : Levels hostname exec enable config) {c : Configuration}
    {m : StackMachine Device} (hm : Follows exec enable config c m) {n : ℕ}
    {k : StackMachine Device} (h : m.after n = some k) :
    Follows exec enable config (.toldAll config c (m.lines 3 n)) k := by
  induction n generalizing k with
  | zero =>
    cases h
    exact hm
  | succ n ih =>
    obtain ⟨j, hj, hstep⟩ := after_succ.mp h
    rw [toldAll_lines_succ hj]
    exact hl.follows_step (ih hj) hstep

/-- The exec shell has accepted an `enable`, and later the enable shell a `configure terminal`, and
what they have entered has been open ever since. -/
def Opened (exec enable config : Shell Device) (m : StackMachine Device) (n : ℕ) : Prop :=
  ∃ i j, i < j ∧ j < n ∧ m.Accepts i exec [] ["enable"] ∧
    m.Accepts j enable [exec] ["configure", "terminal"] ∧
    (∀ t, i < t → t ≤ n → m.HasOpen t [enable, exec]) ∧
    ∀ t, j < t → t ≤ n → m.HasOpen t [config, enable, exec]

theorem Levels.opened_of_after (hl : Levels hostname exec enable config) {m : StackMachine Device}
    (hm : m.stack = [exec]) {n : ℕ} {k : StackMachine Device} (h : m.after n = some k)
    (hk : k.stack = [config, enable, exec]) : Opened exec enable config m n := by
  have hdeeper : ∀ {top mode : Shell Device} {below : List (Shell Device)},
      ¬ mode :: top :: below <:+ m.stack := by
    intro top mode below hsuffix
    have := hm ▸ hsuffix.length_le
    simp at this
  obtain ⟨j, hj, kj, line, name, hafter, hstack, hline, hresult, -, hconfig⟩ :=
    entered_of_after h (⟨[], hk.symm⟩ : config :: enable :: [exec] <:+ k.stack) hdeeper
  obtain ⟨i, hi, ki, line', name', hafter', hstack', hline', hresult', -, henable⟩ :=
    entered_of_after hafter (⟨[], hstack.symm⟩ : enable :: exec :: [] <:+ kj.stack) hdeeper
  obtain ⟨-, args, hresolve⟩ := (hl.enable_dispatch line _ _).2 name hresult
  obtain ⟨-, args', hresolve'⟩ := (hl.exec_dispatch line' _ _).2 name' hresult'
  refine ⟨i, j, hi, hj, ⟨ki, line', args', hafter', hstack', hline', hresolve'⟩,
    ⟨kj, line, args, hafter, hstack, hline, hresolve⟩, fun t hit htn => ?_, hconfig⟩
  rcases Nat.lt_or_ge j t with hjt | htj
  · obtain ⟨l, hl, hopen⟩ := hconfig t hjt htn
    exact ⟨l, hl, (List.suffix_cons config _).trans hopen⟩
  · exact henable t hit htj

/-- **The device is configured from the config shell only.** At every step of a run of the router
the device shows what the lines that the config shell has dispatched so far have told, beginning
with the given host name and no interfaces. A step of the exec shell or the enable shell does not
change the device, and the config shell is on top only where an accepted `enable` and a later
accepted `configure terminal` are still open. -/
theorem configured_by_lines (hostname : String) :
    ∃ exec enable config : Shell Device, Router.exec .self hostname = .ok exec ∧
      exec.mode? enableMode = some enable ∧ enable.mode? configMode = some config ∧
      ∀ (bytes : List UInt8) (limit : Option ℕ),
        let session := Session.start bytes (Device.named hostname) limit
        let m : StackMachine Device := ⟨[exec], session.view⟩
        let told (n : ℕ) := Configuration.toldAll config (.named hostname) (m.lines 3 n)
        (∀ n k, m.after n = some k → k.stack <:+ [config, enable, exec] ∧
          k.view.world.Shows (told n) ∧ (seen k.step).world.Shows (told (n + 1)) ∧
          (k.stack.length < 3 → (seen k.step).world = k.view.world) ∧
          (k.stack = [config, enable, exec] → Opened exec enable config m n)) ∧
        ∃ n k, m.after n = some k ∧
          k.step = .inl ⟨(exec.run session).result, (exec.run session).session.view⟩ := by
  obtain ⟨exec, enable, config, hl⟩ := exists_levels hostname
  refine ⟨exec, enable, config, hl.built, hl.enable_mode, hl.config_mode, fun bytes limit => ?_⟩
  intro session m told
  have hm : Follows exec enable config (.named hostname) m :=
    ⟨⟨[config, enable], rfl⟩, Device.shows_named hostname⟩
  refine ⟨fun n k hk => ?_, ?_⟩
  · have hfollows := hl.follows_after hm hk
    obtain ⟨hnext, hsame⟩ := hl.world_step hfollows
    refine ⟨hfollows.stack, hfollows.world, ?_, hsame, hl.opened_of_after rfl hk⟩
    rw [← toldAll_lines_succ hk] at hnext
    exact hnext
  · obtain ⟨n, k, hk, hhalt⟩ := m.exists_halt
    have hrun : m.run = rest [] (exec.run session) := run_cons exec [] session
    exact ⟨n, k, hk, hhalt.trans (congrArg Sum.inl (hrun.trans (rest_nil _)))⟩

/-- A host name is no command of the exec shell, and abbreviations are told like full lines. -/
example :
    let script := "host x\nen\nconf t\nhost core1\nint eth0 shut\n"
    (Router.exec .self "r1").toOption.map (fun exec =>
      (exec.run (.start script.toUTF8.toList (.named "r1"))).session.world) =
        some ⟨"core1", [("eth0", true)]⟩ := by
  decide +kernel

end Router

end Console
