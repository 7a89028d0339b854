import Console.Proofs.Shell.Described
import Console.Proofs.Shell.StackMachine

/-!
# Runs that attend to their output

A sink with a limit refuses what would exceed it, and a run must notice. A run on such a sink is
compared with the same run on a sink without a limit: while the output fits they do the same, and
when it does not, the limited one ends with the failure and has written and noted nothing else
before.

This is shown for what writes some texts, and is kept when one part of a run follows another.

* **`Conduct.run_within`**: a handler that passes failures on, with and without a limit;
* `Session.Leads`, `Session.within`: an earlier session, and the same with a limit;
* `Session.Attends`: a part of a run that attends to its output; **`Attends.comp`**: one part after
  another;
* `Shell.PassesOn`: a shell whose handlers pass failures on; **`Shell.attends_handle`**,
  **`Shell.attends_run`**: a line, and a whole run.
-/

namespace Console

variable {σ : Type}

/-! ## Handlers -/

/-- **A handler that passes failures on, with and without a limit.** It does the same while what it
writes fits, and ends with the failure when it does not. -/
theorem Conduct.run_within {c : Conduct σ} (hc : c.PassesOn) {s : Sink} (hs : s.limit = none) :
    (c.run s).sink.limit = none ∧ s.Begins (c.run s).sink ∧
      (∀ n, (c.run s).sink.size ≤ n →
        c.run (s.within n) = { c.run s with sink := (c.run s).sink.within n }) ∧
      ∀ n, s.size ≤ n → n < (c.run s).sink.size →
        (c.run (s.within n)).result = .error (.stdio .sinkClosed) ∧
          (c.run (s.within n)).sink.Begins (c.run s).sink := by
  induction hc generalizing s with
  | finish result world =>
    exact ⟨hs, .refl s, fun n _ => rfl, fun n hn hlt => absurd hlt (Nat.not_lt.mpr hn)⟩
  | emit text next fails goes ih =>
    obtain ⟨t, hwrite, ht, hst, hwithin⟩ := Sink.exists_write hs text
    have hfree : (emit text next).run s = (next (.ok ())).run t := by
      simp only [run, hwrite]
    obtain ⟨hlimit, hgrows, hsame, hstops⟩ := ih ht
    rw [hfree]
    refine ⟨hlimit, hst.trans hgrows, fun n hn => ?_, fun n _ hn => ?_⟩
    · rw [← hsame n hn]
      simp only [run, hwithin n, if_pos (hgrows.size_le.trans hn)]
    · by_cases hfits : t.size ≤ n
      · have hlimited : (emit text next).run (s.within n) = (next (.ok ())).run (t.within n) := by
          simp only [run, hwithin n, if_pos hfits]
        rw [hlimited]
        exact hstops n hfits hn
      · obtain ⟨world, hfail⟩ := fails .sinkClosed
        simp only [run, hwithin n, if_neg hfits, hfail]
        exact ⟨trivial, hst.trans hgrows⟩

/-! ## Parts of a run -/

namespace Session

/-- The session with a limit of `n` bytes on its output. -/
def within (n : ℕ) (s : Session σ) : Session σ := { s with sink := s.sink.within n }

/-- What is written and noted in `t` begins with what is written and noted in `s`. -/
structure Leads (s t : Session σ) : Prop where
  sink : s.sink.Begins t.sink
  journal : s.journal.toList <+: t.journal.toList

theorem Leads.refl (s : Session σ) : s.Leads s := ⟨.refl _, List.prefix_rfl⟩

theorem Leads.trans {s t u : Session σ} (h : s.Leads t) (k : t.Leads u) : s.Leads u :=
  ⟨h.sink.trans k.sink, h.journal.trans k.journal⟩

/-- What a session without a limit may become: more is written, and more is noted. -/
structure Grows (s t : Session σ) : Prop where
  limit : t.sink.limit = none
  leads : s.Leads t

theorem Grows.trans {s t u : Session σ} (h : s.Grows t) (k : t.Grows u) : s.Grows u :=
  ⟨k.limit, h.leads.trans k.leads⟩

theorem Grows.size_le {s t : Session σ} (h : s.Grows t) : s.sink.size ≤ t.sink.size :=
  h.leads.sink.size_le

/-- The part `f` of a run, begun in a session without a limit, attends to its output. With a limit
that its output keeps it does the same. With one that its output exceeds it has the result `closed`,
and has written and noted nothing that it does not write and note without a limit. -/
structure Attends {ρ : Type} (closed : ρ) (f : Session σ → ρ × Session σ) (s : Session σ) :
    Prop where
  grows : s.Grows (f s).2
  same : ∀ n, (f s).2.sink.size ≤ n → f (s.within n) = ((f s).1, (f s).2.within n)
  stops : ∀ n, s.sink.size ≤ n → n < (f s).2.sink.size →
    (f (s.within n)).1 = closed ∧ (f (s.within n)).2.Leads (f s).2

variable {ρ τ : Type} {s : Session σ}

theorem Attends.congr {closed : ρ} {f g : Session σ → ρ × Session σ} (h : Attends closed f s)
    (hfg : ∀ s, f s = g s) : Attends closed g s :=
  funext hfg ▸ h

/-- **One part after another.** The second gets the result of the first; where the output of the
first was closed, it leaves everything as it is. -/
theorem Attends.comp {closed : ρ} {closed' : τ} {f : Session σ → ρ × Session σ}
    {g : ρ → Session σ → τ × Session σ} (hf : Attends closed f s)
    (hg : Attends closed' (g (f s).1) (f s).2) (hclosed : ∀ t, g closed t = (closed', t)) :
    Attends closed' (fun s => g (f s).1 (f s).2) s where
  grows := hf.grows.trans hg.grows
  same n hn := by
    have hfirst := hf.same n (hg.grows.size_le.trans hn)
    rw [hfirst]
    exact hg.same n hn
  stops n hs hn := by
    by_cases hfits : (f s).2.sink.size ≤ n
    · rw [hf.same n hfits]
      exact hg.stops n hfits hn
    · obtain ⟨hresult, hleads⟩ := hf.stops n hs (Nat.lt_of_not_le hfits)
      rw [hresult, hclosed]
      exact ⟨rfl, hleads.trans hg.grows.leads⟩

theorem Attends.after_silent {closed : τ} {k : Session σ → ρ × Session σ}
    {g : ρ → Session σ → τ × Session σ} (hg : Attends closed (g (k s).1) (k s).2)
    (hsink : (k s).2.sink = s.sink) (hjournal : s.journal.toList <+: (k s).2.journal.toList)
    (hsame : ∀ n, k (s.within n) = ((k s).1, (k s).2.within n)) :
    Attends closed (fun s => g (k s).1 (k s).2) s where
  grows := ⟨hg.grows.limit, Leads.trans ⟨hsink ▸ .refl _, hjournal⟩ hg.grows.leads⟩
  same n hn := by
    rw [hsame]
    exact hg.same n hn
  stops n hs hn := by
    rw [hsame]
    exact hg.stops n (hsink ▸ hs) hn

theorem attends_pure (hs : s.sink.limit = none) (closed r : ρ) :
    Attends closed (fun s => (r, s)) s where
  grows := ⟨hs, .refl s⟩
  same _ _ := rfl
  stops _ hn hlt := absurd hlt (Nat.not_lt.mpr hn)

theorem attends_writeAll (hs : s.sink.limit = none) (texts : List String) (done : ρ)
    (failed : IoFailure → ρ) :
    Attends (failed .sinkClosed) (fun s => match s.sink.writeAll texts with
      | .ok sink => (done, { s with sink })
      | .error r => (failed r.cause, { s with sink := r.sink })) s := by
  obtain ⟨t, hwrite, ht, hst, hfits, hexceeds⟩ := Sink.exists_writeAll hs texts
  have hlimited (n : ℕ) : (s.within n).sink = s.sink.within n := rfl
  constructor
  · rw [hwrite]
    exact ⟨ht, hst, List.prefix_rfl⟩
  · intro n hn
    rw [hwrite] at hn ⊢
    rw [hlimited, hfits n hn]
    rfl
  · intro n hs hn
    rw [hwrite] at hn ⊢
    obtain ⟨r, hrefused, hcause, hrt⟩ := hexceeds n hs hn
    rw [hlimited, hrefused]
    exact ⟨congrArg failed hcause, hrt, List.prefix_rfl⟩

theorem attends_reply {c : σ → Conduct σ} (hc : ∀ world, (c world).PassesOn)
    (hs : s.sink.limit = none) :
    Attends (.error (.stdio .sinkClosed)) (fun s =>
      (((c s.world).run s.sink).result, s.after ((c s.world).run s.sink))) s := by
  obtain ⟨hlimit, hbegins, hsame, hstops⟩ := Conduct.run_within (hc s.world) hs
  constructor
  · exact ⟨hlimit, hbegins, List.prefix_rfl⟩
  · intro n hn
    have hrun : (c (s.within n).world).run (s.within n).sink = _ := hsame n hn
    simp only [hrun]
    rfl
  · intro n hn hlt
    obtain ⟨hresult, hstopped⟩ := hstops n hn hlt
    exact ⟨hresult, hstopped, List.prefix_rfl⟩

theorem journal_note (s : Session σ) (e : Event) :
    s.journal.toList <+: (s.note e).journal.toList := by
  rw [note, Array.toList_push]
  exact List.prefix_append _ _

theorem journal_record (s : Session σ) (line : String) :
    s.journal.toList <+: (s.record line).journal.toList :=
  journal_note { s with reader := s.reader.record line } _

theorem journal_noteCall (s : Session σ) (r : Reading σ) :
    s.journal.toList <+: (s.noteCall r).journal.toList := by
  cases r with
  | unrecognized => exact List.prefix_rfl
  | ambiguous => exact List.prefix_rfl
  | call handler args => exact s.journal_note _

theorem journal_ask (s : Session σ) (prompt : String) :
    s.journal.toList <+: (s.ask prompt).2.journal.toList := by
  have hnote := s.journal_note (.prompted prompt)
  unfold ask
  simp only
  split
  · exact hnote.trans (journal_note _ _)
  · exact hnote

theorem sink_ask (s : Session σ) (prompt : String) : (s.ask prompt).2.sink = s.sink := by
  unfold ask
  simp only
  split <;> rfl

theorem ask_within (n : ℕ) (s : Session σ) (prompt : String) :
    (s.within n).ask prompt = ((s.ask prompt).1, (s.ask prompt).2.within n) := by
  rcases hread : s.reader.readLine.1 with e | _ | line <;> simp [ask, note, within, hread]

end Session

/-! ## What a line does -/

/-- A turn as a result and a session. -/
def Turn.toProd (t : Turn σ) : Next × Session σ := (t.next, t.session)

/-- What a line does attends to its output: where that is closed, the shells are left with the
failure. -/
def Turn.Attends (f : Session σ → Turn σ) : Session σ → Prop :=
  Session.Attends (.stop (.stdio .sinkClosed)) fun s => (f s).toProd

theorem Turn.Attends.grows {f : Session σ → Turn σ} {s : Session σ} (h : Turn.Attends f s) :
    s.Grows (f s).session :=
  Session.Attends.grows h

namespace Shell

open Session

variable {s : Session σ}

/-- Every handler that a line may call, in the shell or in a mode that can be entered from it, passes
failures on. -/
def PassesOn (shell : Shell σ) : Prop :=
  ∀ names mode, shell.at? names = some mode → ∀ line handler args,
    mode.read line = .call handler args → ∀ i world, (handler.respond i world).PassesOn

theorem PassesOn.mode {shell mode : Shell σ} (h : shell.PassesOn) {name : String}
    (hmode : shell.mode? name = some mode) : mode.PassesOn := by
  intro names inner hinner
  refine h (name :: names) inner ?_
  rw [at?, hmode, Option.bind_some, hinner]

theorem PassesOn.conduct {shell : Shell σ} (h : shell.PassesOn) (line : String) (world : σ) :
    ((shell.read line).conduct line world).PassesOn := by
  cases hread : shell.read line with
  | unrecognized => exact .print (.finish _ _)
  | ambiguous => exact .print (.finish _ _)
  | call handler args => exact h [] shell rfl line handler args hread _ world

theorem attends_follow (hs : s.sink.limit = none) (result : Except Error Outcome) :
    Turn.Attends (follow · result) s := by
  unfold follow
  split
  · exact attends_pure hs _ _
  · exact attends_pure hs _ _
  · exact attends_pure hs _ _
  · rename_i text
    refine (attends_writeAll hs [Report.failed text] Next.again fun e => .stop (.stdio e)).congr
      fun s => ?_
    dsimp only [Session.write]
    rw [Sink.writeAll_singleton]
    cases hwrite : s.sink.write (Report.failed text) with
    | ok sink =>
      rw [Sink.print_of_ok hwrite]
      rfl
    | error e =>
      rw [Sink.print_of_error hwrite]
      rfl
  · exact attends_pure hs _ _

theorem attends_answer (shell : Shell σ) (hs : s.sink.limit = none) (asked : String) :
    Turn.Attends (shell.answer asked) s := by
  refine (attends_writeAll hs ((shell.help asked).texts asked) Next.again
    fun e => .stop (.stdio e)).congr fun s => ?_
  rw [answer, describe_eq_writeAll]
  cases s.sink.writeAll ((shell.help asked).texts asked) <;> rfl

/-- What is done about a line that asks for `r`, once it is noted. -/
def obey (line : String) (r : Reading σ) (s : Session σ) : Turn σ :=
  let reply := (r.conduct line s.world).run s.sink
  follow (s.after reply) reply.result

theorem attends_obey {r : Reading σ} {line : String}
    (hr : ∀ world, (r.conduct line world).PassesOn) (hs : s.sink.limit = none) :
    Turn.Attends (obey line r) s := by
  have hreply := attends_reply hr hs
  exact hreply.comp (g := fun result s => (follow s result).toProd)
    (attends_follow hreply.grows.limit _) fun t => rfl

theorem attends_execute {shell : Shell σ} (hp : shell.PassesOn) (hs : s.sink.limit = none)
    (line : String) : Turn.Attends (shell.execute line) s := by
  have hr := hp.conduct line
  change Turn.Attends
    (fun s => obey line (shell.read line) ((s.record line).noteCall (shell.read line))) s
  generalize shell.read line = r at hr ⊢
  have hsink : ((s.record line).noteCall r).sink = s.sink := by rw [sink_noteCall, sink_record]
  refine Attends.after_silent (k := fun s => ((), (s.record line).noteCall r))
    (g := fun _ s => (obey line r s).toProd) (attends_obey hr (hsink ▸ hs)) hsink ?_ fun n => ?_
  · exact (s.journal_record line).trans (journal_noteCall _ r)
  · cases r <;> rfl

theorem attends_handle {shell : Shell σ} (hp : shell.PassesOn) (hs : s.sink.limit = none)
    (line : String) : Turn.Attends (shell.handle line) s := by
  unfold handle
  dsimp only
  split
  · exact attends_pure hs _ _
  · split
    · exact shell.attends_answer hs _
    · exact attends_execute hp hs _

/-! ## A whole run -/

/-- An ending as a result and a session. -/
def Ending.toProd (e : Ending σ) : Except Error Unit × Session σ := (e.result, e.session)

/-- A run attends to its output. -/
def Ending.Attends (f : Session σ → Ending σ) : Session σ → Prop :=
  Session.Attends (.error (.stdio .sinkClosed)) fun s => (f s).toProd

theorem Ending.Attends.grows {f : Session σ → Ending σ} (h : Ending.Attends f s) :
    s.Grows (f s).session :=
  Session.Attends.grows h

/-- How a run goes on when a line was asked for. -/
def proceed (shell : Shell σ) (answer : Except IoFailure (Option String)) (s : Session σ) :
    Ending σ :=
  match answer with
  | .error e => ⟨.error (.stdio e), s⟩
  | .ok none => ⟨.ok (), s⟩
  | .ok (some line) => shell.resume (shell.handle line s)

theorem proceed_line (shell : Shell σ) (line : String) (s : Session σ) :
    shell.proceed (.ok (some line)) s = shell.resume (shell.handle line s) := rfl

theorem run_eq_proceed (shell : Shell σ) (s : Session σ) :
    shell.run s = shell.proceed (s.ask shell.prompt).1 (s.ask shell.prompt).2 :=
  shell.run_eq s

/-- How a run goes on when a mode has ended so. -/
def back (shell : Shell σ) (result : Except Error Unit) (s : Session σ) : Ending σ :=
  match result with
  | .error e => ⟨.error e, s⟩
  | .ok () => shell.run s

theorem resume_enter {shell mode : Shell σ} {name : String} (h : shell.mode? name = some mode)
    (s : Session σ) :
    shell.resume ⟨.enter name, s⟩ = shell.back (mode.run s).result (mode.run s).session := by
  simp only [resume, enter, h]
  rfl

theorem attends_resume {shell : Shell σ} (hs : s.sink.limit = none)
    (again : Ending.Attends shell.run s)
    (modes : ∀ name mode, shell.mode? name = some mode →
      Ending.Attends mode.run s ∧ Ending.Attends shell.run (mode.run s).session)
    (next : Next) : Ending.Attends (fun s => shell.resume ⟨next, s⟩) s := by
  cases next with
  | again => exact again
  | leave => exact attends_pure hs _ _
  | stop e => exact attends_pure hs _ _
  | enter name =>
    cases hmode : shell.mode? name with
    | none =>
      refine (attends_pure hs _ (.error (.unknownMode name))).congr fun s => ?_
      simp only [resume, enter, hmode]
      rfl
    | some mode =>
      obtain ⟨hinner, houter⟩ := modes name mode hmode
      simp only [resume_enter hmode]
      refine hinner.comp (g := fun result s => (shell.back result s).toProd) ?_ fun t => rfl
      change Attends _ (fun t => (shell.back (mode.run s).result t).toProd) (mode.run s).session
      cases (mode.run s).result with
      | error e => exact attends_pure hinner.grows.limit _ _
      | ok u => exact houter

theorem attends_then {shell : Shell σ} {f : Session σ → Turn σ} (hf : Turn.Attends f s)
    (hrest : Ending.Attends (fun t => shell.resume ⟨(f s).next, t⟩) (f s).session) :
    Ending.Attends (fun s => shell.resume (f s)) s :=
  hf.comp (g := fun next t => (shell.resume ⟨next, t⟩).toProd) hrest fun _ => rfl

/-- **A run attends to its output.** -/
theorem attends_run {shell : Shell σ} (hp : shell.PassesOn) (hs : s.sink.limit = none) :
    Ending.Attends shell.run s := by
  -- On what is unread: a mode may have read some of it before the shell goes on.
  induction hn : s.unread.length using Nat.strong_induction_on generalizing shell s with
  | _ n ih =>
    subst hn
    refine Attends.congr ?_ fun s => congrArg Ending.toProd (shell.run_eq_proceed s).symm
    refine Attends.after_silent (k := fun s => s.ask shell.prompt)
      (g := fun answer s => (shell.proceed answer s).toProd) ?_ (sink_ask _ _) (journal_ask _ _)
      fun n => ask_within n _ _
    have hlimit : (s.ask shell.prompt).2.sink.limit = none := by rw [sink_ask, hs]
    rcases hanswer : (s.ask shell.prompt).1 with e | _ | line
    · exact attends_pure hlimit _ _
    · exact attends_pure hlimit _ _
    · have hread := Session.unread_ask_lt hanswer
      generalize (s.ask shell.prompt).2 = t at hlimit hread ⊢
      simp only [proceed_line]
      have hturn := attends_handle hp hlimit line
      have hlimit' : (shell.handle line t).session.sink.limit = none := hturn.grows.limit
      rw [← Shell.unread_handle shell line] at hread
      have hrest : Ending.Attends
          (fun s => shell.resume ⟨(shell.handle line t).next, s⟩) (shell.handle line t).session := by
        refine attends_resume hlimit' (ih _ hread hp hlimit' rfl) (fun name mode hmode => ?_) _
        have hmode' := ih _ hread (hp.mode hmode) hlimit' rfl
        have hinner := StackMachine.unread_run_le mode (shell.handle line t).session
        exact ⟨hmode', ih _ (Nat.lt_of_le_of_lt hinner hread) hp hmode'.grows.limit rfl⟩
      exact attends_then (f := shell.handle line) hturn hrest

end Shell

end Console
