import Console.Proofs.Shell.StackMachine

/-!
# A machine step by step

A run of the stack machine, seen at each of its steps: which lines it dispatches, what they make of
the world, and which shells are open.

* `StackMachine.heard?`: the line that the next step dispatches;
* `world_step_of_some`, **`stack_step`**: what a step makes of the world and of the open shells;
* `StackMachine.after`: the machine after some steps; **`exists_halt`**: after some it halts;
* `StackMachine.lines`: the lines dispatched so far with so many shells open;
* **`entered_of_after`**: a shell that is open above another one was entered by a line of that one,
  and both have been open since.
-/

namespace Console

open Text

namespace StackMachine

variable {σ : Type}

/-! ## One step -/

/-- The line that the next step dispatches to the shell on top, if it reads one that is neither
blank nor a question. -/
def heard? (m : StackMachine σ) : Option String :=
  match m.stack, firstLine m.view.unread with
  | _ :: _, .ok (some line) =>
    if line = "" ∨ line.toList.getLast? = some '?' then none else some line
  | _, _ => none

/-- What is seen after a step. -/
def seen : Halt σ ⊕ StackMachine σ → Observation σ
  | .inl halt => halt.view
  | .inr m => m.view

theorem world_settle (top : Shell σ) (below : List (Shell σ)) (v : Observation σ)
    (result : Except Error Outcome) : (seen (settle top below v result)).world = v.world := by
  unfold settle
  split
  · rfl
  · rfl
  · split <;> rfl
  · split <;> rfl
  · rfl

theorem stack_settle {top : Shell σ} {below : List (Shell σ)} {v : Observation σ}
    {result : Except Error Outcome} {m : StackMachine σ} (h : settle top below v result = .inr m) :
    m.stack = top :: below ∨ m.stack = below ∨ ∃ name mode, result = .ok (.enter name) ∧
      top.mode? name = some mode ∧ m.stack = mode :: top :: below := by
  unfold settle at h
  split at h
  · cases h
    exact .inl rfl
  · cases h
    exact .inr (.inl rfl)
  · rename_i name
    split at h
    · rename_i mode hmode
      cases h
      exact .inr (.inr ⟨name, mode, rfl, hmode, rfl⟩)
    · cases h
  · split at h
    · cases h
      exact .inl rfl
    · cases h
  · cases h

theorem step_of_none {m : StackMachine σ} (h : m.heard? = none) :
    (seen m.step).world = m.view.world ∧
      ∀ top below m', m.stack = top :: below → m.step = .inr m' →
        m'.stack = top :: below ∨ m'.stack = below := by
  obtain ⟨stack, view⟩ := m
  cases stack with
  | nil => exact ⟨rfl, nofun⟩
  | cons top below =>
    unfold heard? at h
    unfold step
    cases hread : firstLine view.unread with
    | error e => exact ⟨rfl, nofun⟩
    | ok answer =>
      cases answer with
      | none =>
        exact ⟨rfl, fun _ _ _ hs hm => by cases hs; cases hm; exact .inr rfl⟩
      | some line =>
        simp only [hread, ite_eq_left_iff, reduceCtorEq, imp_false, not_not] at h
        simp only [obey]
        split_ifs with hempty hmark
        · exact ⟨rfl, fun _ _ _ hs hm => by cases hs; cases hm; exact .inl rfl⟩
        · split
          · exact ⟨rfl, fun _ _ _ hs hm => by cases hs; cases hm; exact .inl rfl⟩
          · exact ⟨rfl, nofun⟩
        · exact absurd h (not_or.mpr ⟨hempty, hmark⟩)

theorem step_of_some {m : StackMachine σ} {top : Shell σ} {below : List (Shell σ)} {line : String}
    (hs : m.stack = top :: below) (h : m.heard? = some line) :
    ∃ v, v.world = (top.dispatch line m.view.world m.view.sink).world ∧
      m.step = settle top below v (top.dispatch line m.view.world m.view.sink).result := by
  obtain ⟨stack, view⟩ := m
  obtain rfl : stack = top :: below := hs
  unfold heard? at h
  cases hread : firstLine view.unread with
  | error e => simp [hread] at h
  | ok answer =>
    cases answer with
    | none => simp [hread] at h
    | some line =>
      simp only [hread, Option.ite_none_left_eq_some, not_or, Option.some.injEq] at h
      obtain ⟨⟨hempty, hmark⟩, rfl⟩ := h
      generalize hreply : top.dispatch line view.world view.sink = reply
      refine ⟨⟨behindLine view.unread, view.history.add line, view.prompts ++ [top.prompt],
        reply.sink, reply.world⟩, rfl, ?_⟩
      simp only [step, hread, obey, if_neg hempty, if_neg hmark, hreply]

theorem world_step_of_some {m : StackMachine σ} {top : Shell σ} {below : List (Shell σ)}
    {line : String} (hs : m.stack = top :: below) (h : m.heard? = some line) :
    (seen m.step).world = (top.dispatch line m.view.world m.view.sink).world := by
  obtain ⟨v, hworld, hstep⟩ := step_of_some hs h
  rw [hstep, world_settle, hworld]

theorem stack_step {m m' : StackMachine σ} {top : Shell σ} {below : List (Shell σ)}
    (hs : m.stack = top :: below) (h : m.step = .inr m') :
    m'.stack = top :: below ∨ m'.stack = below ∨ ∃ line name mode, m.heard? = some line ∧
      (top.dispatch line m.view.world m.view.sink).result = .ok (.enter name) ∧
      top.mode? name = some mode ∧ m'.stack = mode :: top :: below := by
  cases hline : m.heard? with
  | none =>
    obtain ⟨-, hstack⟩ := step_of_none hline
    exact (hstack top below m' hs h).imp_right .inl
  | some line =>
    obtain ⟨v, -, hstep⟩ := step_of_some hs hline
    obtain hsame | hclosed | ⟨name, mode, hentered⟩ := stack_settle (hstep.symm.trans h)
    · exact .inl hsame
    · exact .inr (.inl hclosed)
    · exact .inr (.inr ⟨line, name, mode, rfl, hentered⟩)

theorem exists_stack_of_step {m m' : StackMachine σ} (h : m.step = .inr m') :
    ∃ top below, m.stack = top :: below := by
  refine List.exists_cons_of_ne_nil fun hs => ?_
  rw [step, hs] at h
  cases h

/-! ## After some steps -/

/-- The machine after `n` steps, unless it has halted before. -/
def after (m : StackMachine σ) : ℕ → Option (StackMachine σ)
  | 0 => some m
  | n + 1 => (m.after n).bind fun k => k.step.getRight?

theorem after_succ {m k : StackMachine σ} {n : ℕ} :
    m.after (n + 1) = some k ↔ ∃ j, m.after n = some j ∧ j.step = .inr k := by
  simp only [after, Option.bind_eq_some_iff, Sum.getRight?_eq_some_iff]

theorem after_of_step {m m' : StackMachine σ} (h : m.step = .inr m') (n : ℕ) :
    m.after (n + 1) = m'.after n := by
  induction n with
  | zero => simp [after, h]
  | succ n ih => rw [after, ih, after]

/-- **After some steps a machine halts,** with what its run leaves. -/
theorem exists_halt (m : StackMachine σ) : ∃ n k, m.after n = some k ∧ k.step = .inl m.run := by
  fun_induction run m with
  | case1 m halt h => exact ⟨0, m, rfl, h⟩
  | case2 m m' h ih =>
    obtain ⟨n, k, hk, hhalt⟩ := ih
    exact ⟨n + 1, k, (after_of_step h n).trans hk, hhalt⟩

theorem rest_nil (e : Shell.Ending σ) : rest [] e = ⟨e.result, e.session.view⟩ := by
  obtain ⟨result, session⟩ := e
  cases result with
  | error e => rfl
  | ok u => exact run_of_inl rfl

/-- The lines that the machine has dispatched in its first `n` steps with `depth` shells open. -/
def lines (m : StackMachine σ) (depth : ℕ) : ℕ → List String
  | 0 => []
  | n + 1 => m.lines depth n ++
    ((m.after n).bind fun k => if k.stack.length = depth then k.heard? else none).toList

theorem lines_succ {m k : StackMachine σ} {n : ℕ} (h : m.after n = some k) (depth : ℕ) :
    m.lines depth (n + 1) =
      m.lines depth n ++ (if k.stack.length = depth then k.heard? else none).toList := by
  rw [lines, h, Option.bind_some]

/-- **A shell that is open above another one was entered by a line of that one,** and both have been
open since. -/
theorem entered_of_after {m k : StackMachine σ} {n : ℕ} {mode top : Shell σ}
    {below : List (Shell σ)} (h : m.after n = some k) (hopen : mode :: top :: below <:+ k.stack)
    (hstart : ¬ mode :: top :: below <:+ m.stack) :
    ∃ i < n, ∃ j line name, m.after i = some j ∧ j.stack = top :: below ∧ j.heard? = some line ∧
      (top.dispatch line j.view.world j.view.sink).result = .ok (.enter name) ∧
      top.mode? name = some mode ∧
      ∀ t, i < t → t ≤ n → ∃ l, m.after t = some l ∧ mode :: top :: below <:+ l.stack := by
  induction n generalizing k with
  | zero =>
    cases h
    exact absurd hopen hstart
  | succ n ih =>
    obtain ⟨before, hbefore, hstep⟩ := after_succ.mp h
    by_cases hprev : mode :: top :: below <:+ before.stack
    · -- They were open before: the same line has entered the shell.
      obtain ⟨i, hi, j, line, name, hj, hstack, hheard, hresult, hmode, hsince⟩ := ih hbefore hprev
      refine ⟨i, Nat.lt_succ_of_lt hi, j, line, name, hj, hstack, hheard, hresult, hmode, ?_⟩
      intro t hit htn
      rcases Nat.lt_or_eq_of_le htn with hlt | rfl
      · exact hsince t hit (Nat.lt_succ_iff.mp hlt)
      · exact ⟨k, h, hopen⟩
    · -- They were not: this step has opened the shell.
      obtain ⟨top', below', hstack⟩ := exists_stack_of_step hstep
      rw [hstack] at hprev
      obtain hsame | hclosed | ⟨line, name, mode', hheard, hresult, hmode, hpushed⟩ :=
        stack_step hstack hstep
      · exact absurd (hsame ▸ hopen) hprev
      · exact absurd ((hclosed ▸ hopen).trans (List.suffix_cons top' below')) hprev
      · rw [hpushed] at hopen
        obtain heq | hsuffix := List.suffix_cons_iff.mp hopen
        · cases heq
          refine ⟨n, Nat.lt_succ_self n, before, line, name, hbefore, hstack, hheard, hresult,
            hmode, fun t hnt htn => ?_⟩
          obtain rfl : t = n + 1 := Nat.le_antisymm htn hnt
          exact ⟨k, h, hpushed ▸ List.suffix_rfl⟩
        · exact absurd hsuffix hprev

end StackMachine

end Console
