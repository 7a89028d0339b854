import Console.Proofs.Shell.Visible
import Console.Proofs.Tree.Follows
import Console.Shell.Dispatch

/-!
# What a line resolves to

A line resolves to a command if it has one reading and this ends at a handler. Any other line leaves
the world as it is.

* `Shell.resolve?`: the path to the command and the arguments;
* `Reply.Idle`: a reply that leaves the world as it is and goes into no mode;
* **`dispatch_cases`**: a dispatch calls a loaded command with a path that the line resolves to, or
  it is idle;
* `Element.Takes`: the values that a place takes;
* **`takes_of_resolve`**: the arguments are values of the places along the path.
-/

namespace Console

universe u

variable {η : Type u} {σ : Type}

/-! ## The values along a path -/

/-- A value that the place takes: its keyword, or one that its converter has for some fragment. -/
def Element.Takes (e : Element) (v : Value) : Prop :=
  v = .word e.keyword ∨ ∃ c f, e.converter = some c ∧ c.apply f = some v

theorem Element.Takes.eq_keyword {e : Element} {v : Value} (h : e.Takes v)
    (he : e.converter = none) : v = .word e.keyword := by
  obtain h | ⟨c, f, hc, -⟩ := h
  · exact h
  · rw [he] at hc
    cases hc

theorem Element.Takes.exists_word {e : Element} {v : Value} (h : e.Takes v)
    (he : e.converter = some .variable) : ∃ text, v = .word text := by
  obtain h | ⟨c, f, hc, hv⟩ := h
  · exact ⟨_, h⟩
  · rw [he, Option.some.injEq] at hc
    subst hc
    exact ⟨f, (Option.some.inj hv).symm⟩

theorem Expansion.arguments_cons_of_isArgument {s : Step η}
    (h : s.node.element.isArgument = true) (ss : List (Step η)) :
    (mk (s :: ss)).arguments = s.value :: (mk ss).arguments := by
  simp [arguments, h]

theorem Expansion.arguments_cons_of_not {s : Step η} (h : ¬ s.node.element.isArgument = true)
    (ss : List (Step η)) : (mk (s :: ss)).arguments = (mk ss).arguments := by
  simp [arguments, h]

namespace CommandTree

/-- The elements of the nodes along a path of keys. -/
def elementsAlong (t : CommandTree η) : List String → Option (List Element)
  | [] => some []
  | key :: keys => (t.child? key).bind fun c => (c.elementsAlong keys).map (c.element :: ·)

theorem takes_of_mem_stepsFor {t : CommandTree η} (ht : t.Sound) {f : String} {s : Step η}
    (h : s ∈ t.stepsFor f) : s.node.element.Takes s.value := by
  have hfrom := from_of_mem_stepsFor ht h
  by_cases hprefix : f.toList <+: s.node.keyword.toList
  · exact .inl (hfrom.keyword hprefix)
  · obtain ⟨c, hc, hv⟩ := hfrom.converted hprefix
    exact .inr ⟨c, f, hc, hv⟩

theorem Leads.takes {t : CommandTree η} {ss : List (Step η)} (h : t.Leads ss) (ht : t.Sound)
    (hrec : t.element.isRecursive = false) {es : List Element}
    (hes : t.elementsAlong (Expansion.mk ss).path = some es)
    (hplain : ∀ e ∈ es, e.isRecursive = false) :
    List.Forall₂ Element.Takes (es.filter Element.isArgument) (Expansion.mk ss).arguments := by
  induction h generalizing es with
  | nil t =>
    cases hes
    exact .nil
  | @cons t f s ss mem rest ih =>
    rcases stays_or_child_of_mem_stepsFor ht mem with ⟨-, -, hrec'⟩ | ⟨hgoes, hchild⟩
    · rw [hrec] at hrec'
      cases hrec'
    · rw [Expansion.path_cons_of_not_stays hgoes, elementsAlong, hchild, Option.bind_some] at hes
      obtain ⟨rest, hrest, rfl⟩ := Option.map_eq_some_iff.mp hes
      obtain ⟨hnode, hplain⟩ := List.forall_mem_cons.mp hplain
      have hargs := ih (sound_child ht hchild).2 hnode hrest hplain
      by_cases harg : s.node.element.isArgument = true
      · rw [Expansion.arguments_cons_of_isArgument harg, List.filter_cons_of_pos harg]
        exact .cons (takes_of_mem_stepsFor ht mem) hargs
      · rw [Expansion.arguments_cons_of_not harg, List.filter_cons_of_neg harg]
        exact hargs

end CommandTree

/-! ## Idle replies -/

/-- A reply that leaves the world as it is and goes into no mode. -/
structure Reply.Idle (reply : Reply σ) (world : σ) : Prop where
  world_eq : reply.world = world
  stays : ∀ mode, reply.result ≠ .ok (.enter mode)

theorem Conduct.idle_continue (world : σ) (sink : Sink) :
    ((finish (.ok .continue) world).run sink).Idle world :=
  ⟨rfl, fun mode hresult => by cases hresult⟩

theorem Conduct.idle_print {text : String} {world : σ} {next : Conduct σ}
    (h : ∀ sink, (next.run sink).Idle world) (sink : Sink) :
    ((print text world next).run sink).Idle world := by
  rw [print, run]
  split
  · exact h _
  · exact ⟨rfl, fun mode hresult => by cases hresult⟩

theorem Conduct.idle_printAll {texts : List String} {world : σ} {next : Conduct σ}
    (h : ∀ sink, (next.run sink).Idle world) (sink : Sink) :
    ((printAll texts world next).run sink).Idle world := by
  induction texts generalizing sink with
  | nil => exact h sink
  | cons text texts ih => exact idle_print ih sink

theorem Report.idle_conduct (text : String) (world : σ) (sink : Sink) :
    ((Report.conduct text world).run sink).Idle world :=
  Conduct.idle_print (Conduct.idle_continue world) sink

/-! ## Lines -/

namespace Shell

/-- What a line resolves to: the path of its only reading, if a command ends there, and the
arguments. -/
def resolve? (s : Shell σ) (line : String) : Option (List String × List Value) :=
  (parse line).bind fun fragments =>
    match expand s.root fragments false with
    | [e] => (e.last?.bind CommandTree.handler).map fun _ => (e.path, e.arguments)
    | _ => none

/-- **A dispatch calls a loaded command** with a path that the line resolves to, or else it is
idle. -/
theorem dispatch_cases {s : Shell σ} {cs : List (Command σ)}
    (h : CommandTree.Gains .root cs s.root) (line : String) (world : σ) (sink : Sink) :
    (s.resolve? line = none ∧ (s.dispatch line world sink).Idle world) ∨
      ∃ c ∈ cs, ∃ path args, c.Denotes path ∧ s.resolve? line = some (path, args) ∧
        s.dispatch line world sink = (c.handler.respond ⟨line, args⟩ world).run sink := by
  unfold dispatch read resolve?
  cases parse line with
  | none => exact .inl ⟨rfl, Report.idle_conduct _ _ _⟩
  | some fragments =>
    simp only [Option.bind_some]
    rcases he : expand s.root fragments false with _ | ⟨e, _ | ⟨d, es⟩⟩
    · exact .inl ⟨rfl, Report.idle_conduct _ _ _⟩
    · cases hend : e.last?.bind CommandTree.handler with
      | none =>
        simp only [hend, Option.map_none]
        exact .inl ⟨trivial, Report.idle_conduct _ _ _⟩
      | some handler =>
        obtain ⟨c, hc, hdenotes, rfl⟩ := h.exists_command (he ▸ List.mem_singleton_self e) hend
        simp only [hend, Option.map_some]
        exact .inr ⟨c, hc, e.path, e.arguments, hdenotes, rfl, rfl⟩
    · exact .inl ⟨rfl, Report.idle_conduct _ _ _⟩

/-- **The arguments of a line are values of the places along its path,** if nothing on the path may
be repeated. -/
theorem takes_of_resolve {s : Shell σ} {cs : List (Command σ)}
    (h : CommandTree.Gains .root cs s.root) {line : String} {path : List String}
    {args : List Value} (hline : s.resolve? line = some (path, args)) {es : List Element}
    (hes : s.root.elementsAlong path = some es) (hplain : ∀ e ∈ es, e.isRecursive = false) :
    List.Forall₂ Element.Takes (es.filter Element.isArgument) args := by
  obtain ⟨fragments, -, hline⟩ := Option.bind_eq_some_iff.mp hline
  split at hline
  · rename_i e he
    obtain ⟨handler, -, heq⟩ := Option.map_eq_some_iff.mp hline
    cases heq
    obtain ⟨hleads, -⟩ := CommandTree.leads_of_mem_expand (he ▸ List.mem_singleton_self e)
    have hroot : Element.root.isRecursive = false := by decide +kernel
    exact hleads.takes h.sound (h.element ▸ hroot) hes hplain
  · cases hline

end Shell

end Console
