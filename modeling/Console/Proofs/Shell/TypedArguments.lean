import Console.Proofs.Shell.Loaded
import Console.Proofs.Spec.RoundTrip
import Console.Proofs.Tree.Walk
import Console.Shell.Dispatch

/-!
# What a handler gets for typed places

A line that calls a handler is a walk through the tree of its shell. The value of a step to a typed
place is the one that the place has for its fragment, unless the fragment begins the keyword of the
place: then it is the keyword.

* `Step.Given`: what is handed over for a fragment at a typed place;
* `CommandTree.Compiled`, **`LoadedWith.compiled`**: the elements below the root of a loaded shell
  are those of argspecs;
* `Reading.ofExpansions`, `read_of_expand`, `walks_of_read`: how a line is read off its expansions,
  and the walk of a line that calls a handler;
* **`given_of_read`**: what the handler gets for each fragment of a line.
-/

namespace Console

universe u

variable {η : Type u} {σ : Type}

/-- What is handed over for the fragment `f` at a place of kind `c`: the value that the place has
for it, except that a fragment which begins the keyword of the place stands for this keyword. -/
structure Step.Given (s : Step η) (f : String) (c : Converter) : Prop where
  isArgument : s.node.element.isArgument = true
  delivers_iff : c.Delivers f s.value ↔
    (f.toList <+: s.node.keyword.toList → c = .variable ∧ f = s.node.keyword)
  keyword : f.toList <+: s.node.keyword.toList → s.value = .word s.node.keyword

theorem Element.IsCompiled.isArgument {e : Element} (h : e.IsCompiled) {c : Converter}
    (hc : e.converter = some c) : e.isArgument = true := by
  obtain ⟨argspec, description, inGroup, rfl⟩ := h
  have hresolve : Converter.resolve (keywordOf argspec) = some c := hc
  simp only [ofArgspec, hresolve, Option.isSome_some, Bool.or_true]

theorem Step.given_of_parse {s : Step η} {f : String} (hf : s.node.parse f = some s.value)
    (he : s.node.element.IsCompiled) {c : Converter} (hc : s.node.element.converter = some c) :
    s.Given f c := by
  by_cases hprefix : f.toList <+: s.node.keyword.toList
  · rw [CommandTree.parse_of_begins hprefix, Option.some.injEq] at hf
    refine ⟨he.isArgument hc, ⟨fun h _ => ?_, fun h => ?_⟩, fun _ => hf.symm⟩
    · rw [← hf] at h
      rcases c with _ | ⟨first, last⟩
      · exact ⟨rfl, (Value.word.inj h).symm⟩
      · obtain ⟨n, hn, -⟩ := h
        cases hn
    · obtain ⟨rfl, hfk⟩ := h hprefix
      rw [← hf, ← hfk]
      rfl
  · rw [CommandTree.parse_of_not_begins hprefix, hc, Option.bind_some] at hf
    refine ⟨he.isArgument hc, ⟨fun _ h => absurd h hprefix, fun _ => ?_⟩, fun h => absurd h hprefix⟩
    exact Converter.apply_eq_some.mp hf

/-! ## The elements of a loaded shell -/

/-- The elements below this node are those of argspecs, and so is its own if it may be repeated. -/
structure CommandTree.Compiled (t : CommandTree η) : Prop where
  sound : t.Sound
  below : ∀ p ≠ [], ∀ n, t.lookup p = some n → n.element.IsCompiled
  here : t.element.isRecursive = true → t.element.IsCompiled

namespace CommandTree

theorem Compiled.child {t c : CommandTree η} (ht : t.Compiled) {k : String}
    (hc : t.child? k = some c) : c.element.IsCompiled ∧ c.Compiled := by
  have hlookup := lookup_cons_of_child hc
  have hcompiled := ht.below [k] (List.cons_ne_nil _ _) c (hlookup [])
  refine ⟨hcompiled, (sound_child ht.sound hc).2, fun p _ n hn => ?_, fun _ => hcompiled⟩
  exact ht.below (k :: p) (List.cons_ne_nil _ _) n ((hlookup p).trans hn)

theorem Compiled.isCompiled_of_mem_stepsFor {t : CommandTree η} (ht : t.Compiled) {f : String}
    {s : Step η} (h : s ∈ t.stepsFor f) : s.node.element.IsCompiled := by
  obtain ⟨-, ⟨k, hk⟩ | ⟨hnode, hrec⟩⟩ := parse_of_mem_stepsFor ht.sound h
  · exact (ht.child hk).1
  · exact hnode ▸ ht.here hrec

theorem Compiled.step {t : CommandTree η} (ht : t.Compiled) {f : String} {s : Step η}
    (h : s ∈ t.stepsFor f) :
    (∀ c, s.node.element.converter = some c → s.Given f c) ∧ s.node.Compiled := by
  obtain ⟨hparse, ⟨k, hk⟩ | ⟨hnode, hrec⟩⟩ := parse_of_mem_stepsFor ht.sound h
  · obtain ⟨hcompiled, hchild⟩ := ht.child hk
    exact ⟨fun c hc => Step.given_of_parse hparse hcompiled hc, hchild⟩
  · rw [← hnode] at ht hrec
    exact ⟨fun c hc => Step.given_of_parse hparse (ht.here hrec) hc, ht⟩

theorem Gains.compiled {t : CommandTree (Handler σ)} {cs : List (Command σ)}
    (h : Gains .root cs t) : t.Compiled := by
  refine ⟨h.sound, fun p hp n hn => ?_, fun hrec => ?_⟩
  · have hlabel : Label.all (cs.flatMap (·.labels p)) = some n.label := by
      rw [← h.labelAt_root hp, CommandTree.labelAt, hn, Option.map_some]
    have helement := Label.element_all (cs.flatMap (·.labels p))
    rw [hlabel, Option.map_some] at helement
    obtain ⟨l, hl, hle⟩ := Option.map_eq_some_iff.mp helement.symm
    obtain ⟨c, -, hlc⟩ := List.mem_flatMap.mp (List.mem_of_head? hl)
    obtain ⟨fs, e, gs, ⟨tokens, hcompile, hdenotes⟩, -, rfl⟩ := Command.mem_labels.mp hlc
    have hwf := (wellFormed_of_compile hcompile).2
    have he := hdenotes.isCompiled hwf e (List.mem_append_right fs List.mem_cons_self)
    have helem : e = n.element := hle
    exact helem ▸ he
  · have hroot : Element.root.isRecursive = false := by decide +kernel
    rw [h.element] at hrec
    exact absurd (hroot.symm.trans hrec) Bool.false_ne_true

end CommandTree

/-- **The elements below the root of a loaded shell are those of argspecs.** -/
theorem Shell.LoadedWith.compiled {prompt : String} {sets : List (CommandSet σ)} {s : Shell σ}
    (h : Shell.LoadedWith prompt sets s) : s.root.Compiled :=
  h.gains.compiled

/-! ## The reading of a line -/

/-- The arguments that a line has, if it calls a handler. -/
def Reading.arguments? : Reading σ → Option (List Value)
  | .call _ args => some args
  | _ => none

theorem Reading.arguments?_eq_some {r : Reading σ} {args : List Value} :
    r.arguments? = some args ↔ ∃ handler, r = .call handler args := by
  cases r with
  | unrecognized => simp [arguments?]
  | ambiguous => simp [arguments?]
  | call handler given => simp [arguments?]

/-- What a line asks for that has these expansions. -/
def Reading.ofExpansions : List (Expansion (Handler σ)) → Reading σ
  | [] => .unrecognized
  | [e] =>
    match e.last?.bind CommandTree.handler with
    | none => .unrecognized
    | some handler => .call handler e.arguments
  | _ => .ambiguous

namespace Shell

theorem read_eq_ofExpansions (s : Shell σ) {line : String} {fragments : List String}
    (h : parse line = some fragments) :
    s.read line = .ofExpansions (expand s.root fragments false) := by
  rw [read, h]
  rfl

theorem read_of_expand {s : Shell σ} {line : String} {fragments : List String}
    (hparse : parse line = some fragments) {e : Expansion (Handler σ)}
    (he : expand s.root fragments false = [e]) {handler : Handler σ}
    (hend : e.last?.bind CommandTree.handler = some handler) :
    s.read line = .call handler e.arguments := by
  rw [read_eq_ofExpansions s hparse, he]
  simp only [Reading.ofExpansions, hend]

theorem walks_of_read {s : Shell σ} {line : String} {handler : Handler σ} {args : List Value}
    (h : s.read line = .call handler args) :
    ∃ fragments steps, parse line = some fragments ∧ s.root.Walks fragments steps ∧
      (steps.getLast?.bind fun step => step.node.handler) = some handler ∧
      args = (steps.filter fun step => step.node.element.isArgument).map Step.value := by
  unfold read at h
  split at h
  · cases h
  · rename_i fragments hparse
    split at h
    · cases h
    · rename_i e he
      split at h
      · cases h
      · rename_i g hg
        cases h
        refine ⟨fragments, e.steps, hparse, CommandTree.walks_of_expand he, ?_, rfl⟩
        rw [Expansion.last?, Option.bind_map] at hg
        exact hg
    · cases h

/-- **What the handler gets for each fragment of a line.** The handler is called with the values of
the steps to arguments. A fragment at a typed place has the value that was promised for it if and
only if it does not begin the keyword of the place, or the place is a variable and the fragment is
its keyword; otherwise its value is the keyword. -/
theorem given_of_read {prompt : String} {sets : List (CommandSet σ)} {s : Shell σ}
    (hs : Shell.LoadedWith prompt sets s) {line : String} {handler : Handler σ}
    {args : List Value} (h : s.read line = .call handler args) :
    (∀ world sink, s.dispatch line world sink = (handler.respond ⟨line, args⟩ world).run sink) ∧
      ∃ fragments steps, parse line = some fragments ∧ s.root.Walks fragments steps ∧
        (steps.getLast?.bind fun step => step.node.handler) = some handler ∧
        args = (steps.filter fun step => step.node.element.isArgument).map Step.value ∧
        List.Forall₂ (fun f step => ∀ c, step.node.element.converter = some c → step.Given f c)
          fragments steps := by
  refine ⟨fun world sink => by rw [dispatch, h]; rfl, ?_⟩
  obtain ⟨fragments, steps, hparse, hwalk, hlast, hargs⟩ := walks_of_read h
  refine ⟨fragments, steps, hparse, hwalk, hlast, hargs, ?_⟩
  exact hwalk.forall₂ (fun t f step ht hstep => ht.step hstep) hs.compiled

/-- A shell with one command, which takes a word and an integer. -/
def ofPing : Shell Unit :=
  ((Shell.empty ">").load (.ofList [.idle "ping HOST <1-9>" false 0]) ()).shell

theorem loadedWith_ofPing :
    Shell.LoadedWith ">" [.ofList [.idle "ping HOST <1-9>" false 0]] ofPing :=
  .load _ () .empty (by decide +kernel)

theorem given_of_read_ping :
    ∃ handler fragments steps,
      ofPing.read "ping h 5" = .call handler [.word "h", .integer 5] ∧
      parse "ping h 5" = some fragments ∧ ofPing.root.Walks fragments steps ∧
      List.Forall₂ (fun f step => ∀ c, step.node.element.converter = some c → step.Given f c)
        fragments steps := by
  obtain ⟨handler, hread⟩ := Reading.arguments?_eq_some.mp
    (show (ofPing.read "ping h 5").arguments? = some [.word "h", .integer 5] by decide +kernel)
  obtain ⟨-, fragments, steps, hparse, hwalk, -, -, hgiven⟩ := given_of_read loadedWith_ofPing hread
  exact ⟨handler, fragments, steps, hread, hparse, hwalk, hgiven⟩

/-- A word and an integer are replaced by the keywords that they begin. -/
theorem keywords_for_ping :
    Shell.LoadedWith ">" [.ofList [.idle "ping HOST <1-9>" false 0]] ofPing ∧
      ∃ handler steps,
        ofPing.read "ping H <" = .call handler [.word "HOST", .word "<1-9>"] ∧
        parse "ping H <" = some ["ping", "H", "<"] ∧ ofPing.root.Walks ["ping", "H", "<"] steps ∧
        (steps.map fun step => (step.value, step.node.element.converter)) =
          [(.word "ping", none), (.word "HOST", some .variable),
            (.word "<1-9>", some (.range 1 9))] ∧
        ¬ Converter.Delivers .variable "H" (.word "HOST") ∧
        ¬ Converter.Delivers (.range 1 9) "<" (.word "<1-9>") := by
  obtain ⟨handler, hread⟩ := Reading.arguments?_eq_some.mp
    (show (ofPing.read "ping H <").arguments? = some [.word "HOST", .word "<1-9>"] by
      decide +kernel)
  have hexpand : ((expand ofPing.root ["ping", "H", "<"] false).map fun e =>
      e.steps.map fun step => (step.value, step.node.element.converter)) =
        [[(.word "ping", none), (.word "HOST", some .variable),
          (.word "<1-9>", some (.range 1 9))]] := by
    decide +kernel
  obtain ⟨e, he, hsteps⟩ := List.map_eq_singleton_iff.mp hexpand
  refine ⟨loadedWith_ofPing, handler, e.steps, hread, by decide +kernel,
    CommandTree.walks_of_expand he, hsteps, ?_, ?_⟩
  · intro h
    exact absurd (Value.word.inj h) (by decide)
  · rintro ⟨n, hn, -⟩
    cases hn

end Shell

end Console
