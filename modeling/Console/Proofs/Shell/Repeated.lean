import Console.Proofs.Shell.Listing

/-!
# Places for any number of words

A node that takes any word, may be repeated and has no children keeps every fragment behind it: no
fragment is the key of a child, so that each stays at the node. With a handler there, the line is a
command after each of them.

* `CommandTree.TakesAny`: such a node; `CommandTree.taken`: the word that it takes for a fragment;
* `TakesAny.stepsFor_eq`: one fragment stays at the node, the empty one too;
  **`TakesAny.walks`**: so do any number of them;
* `TakesAny.expand_behind`: the reading of fragments that lead to the node, and of others behind
  them;
* **`Shell.takes_any_number`**: all readings behind such fragments, and help for them.
-/

namespace Console

universe u

variable {η : Type u} {σ : Type}

namespace CommandTree

/-- A node that takes any number of words. -/
structure TakesAny (t : CommandTree η) : Prop where
  repeats : t.element.isRecursive = true
  converts : t.element.converter = some .variable
  childless : ∀ k, t.child? k = none

/-- The word that a node which takes any word takes for a fragment: its own keyword for what begins
it, and otherwise the fragment. -/
def taken (t : CommandTree η) (f : String) : String :=
  if f.toList <+: t.keyword.toList then t.keyword else f

/-! ## Staying at a node -/

theorem TakesAny.parse_eq {t : CommandTree η} (h : t.TakesAny) (f : String) :
    t.parse f = some (.word (t.taken f)) := by
  unfold taken
  split_ifs with hbegins
  · exact parse_of_begins hbegins
  · rw [parse_of_not_begins hbegins, h.converts]
    rfl

theorem TakesAny.stepsFor_eq {t : CommandTree η} (h : t.TakesAny) (f : String) :
    t.stepsFor f = [⟨.word (t.taken f), t, true⟩] :=
  stepsFor_of_self (h.childless f) h.repeats (h.parse_eq f)

/-- **Any number of fragments stays at the node.** -/
theorem TakesAny.walks {t : CommandTree η} (h : t.TakesAny) (fs : List String) :
    t.Walks fs (fs.map fun f => ⟨.word (t.taken f), t, true⟩) := by
  induction fs with
  | nil => exact .nil t
  | cons f fs ih => exact .cons (h.stepsFor_eq f) ih

theorem TakesAny.expand_behind {t n : CommandTree η} (h : n.TakesAny) {gs : List String}
    {e : Expansion η} (he : expand t gs false = [e]) (hn : e.last? = some n) (fs : List String) :
    expand t (gs ++ fs) false = [⟨e.steps ++ fs.map fun f => ⟨.word (n.taken f), n, true⟩⟩] := by
  have hgo : expand t (gs ++ fs) false = expandFrom n e false fs := by
    rw [← Expansion.reached_of_last? hn t]
    exact expandFrom_append_of_walks (walks_of_expand he) .start false fs
  rw [hgo]
  exact expandFrom_of_walks (h.walks fs) e
    (List.append_ne_nil_of_left_ne_nil (Expansion.steps_ne_nil hn) _)

end CommandTree

namespace Expansion

theorem last?_append_map {e : Expansion η} {n : CommandTree η} (hn : e.last? = some n)
    (value : String → Value) (fs : List String) :
    (mk (e.steps ++ fs.map fun f => ⟨value f, n, true⟩)).last? = some n := by
  rw [last?] at hn ⊢
  cases hlast : (fs.map fun f => (⟨value f, n, true⟩ : Step η)).getLast? with
  | none =>
    rw [List.getLast?_append, hlast, Option.none_or]
    exact hn
  | some st =>
    obtain ⟨f, -, rfl⟩ := List.mem_map.mp (List.mem_of_getLast? hlast)
    rw [List.getLast?_append, hlast, Option.some_or, Option.map_some]

end Expansion

namespace Shell

open Text

/-- **Any number of words.** Let some fragments have one reading, which ends at a node that takes
any number of words and has a handler. With any other fragments behind them they have one reading,
which ends at the same node and has one more value for each fragment: the keyword of the node where
the fragment begins it, and otherwise the fragment. If the line ends in a blank, help has a line for
the node and then the mark of a command, or neither if the node is hidden. -/
theorem takes_any_number {prompt : String} {sets : List (CommandSet σ)} {s : Shell σ}
    (hs : Shell.LoadedWith prompt sets s) {gs : List String} {e : Expansion (Handler σ)}
    (he : expand s.root gs false = [e]) {n : CommandTree (Handler σ)} (hn : e.last? = some n)
    (hany : n.TakesAny) (hhandler : n.handler.isSome = true) (fs : List String) :
    (∃ d, expand s.root (gs ++ fs) false = [d] ∧ d.last? = some n ∧
      d.values = e.values ++ fs.map (fun f =>
        .word (if f.toList <+: n.keyword.toList then n.keyword else f)) ∧
      d.nodes = e.nodes ++ List.replicate fs.length n) ∧
    ∀ line, endsBlank line = true → parse line = some (gs ++ fs) → ∀ sink,
      (s.describe line sink).mapError Sink.Refusal.cause = sink.write (if n.hidden then "\n"
        else "  " ++ n.keyword ++ "\t" ++ n.element.description ++ "\n" ++ "  <cr>\n\n") := by
  have hread := hany.expand_behind he hn fs
  have hlast := Expansion.last?_append_map hn (fun f => .word (n.taken f)) fs
  refine ⟨⟨_, hread, hlast, ?_, ?_⟩, fun line hblank hparse sink => ?_⟩
  · rw [Expansion.values, List.map_append, List.map_map]
    rfl
  · rw [Expansion.nodes, List.map_append, List.map_map]
    exact congrArg (e.nodes ++ ·) List.map_const'
  · have hsteps := CommandTree.stepsFor_empty_of_isRecursive (hany.childless "") hany.repeats
    rw [mapError_describe, help_of_resolves hs.gains.sound (wantsNext_of_endsBlank hblank) hparse hread
      hlast (.inr hhandler), hsteps, hhandler]
    cases hhidden : n.hidden with
    | true => simp [hhidden]
    | false => simp [hhidden, Step.entry, Value.text, String.append_assoc]

/-- A shell with one command, which takes any number of words. -/
def ofEcho : Shell Unit :=
  ((Shell.empty ">").load (.ofList [.idle "echo .WORD" false 0]) ()).shell

/-- The empty text begins every keyword, and `W` begins this one. -/
theorem takes_any_number_echo :
    Shell.LoadedWith ">" [.ofList [.idle "echo .WORD" false 0]] ofEcho ∧
      ∃ e n, expand ofEcho.root ["echo", "x"] false = [e] ∧ e.last? = some n ∧ n.TakesAny ∧
        n.handler.isSome = true ∧
        (∃ d, expand ofEcho.root ["echo", "x", "", "hi", "W"] false = [d] ∧ d.last? = some n ∧
          d.values =
            [.word "echo", .word "x", .word "WORD", .word "hi", .word "WORD"]) ∧
        endsBlank "echo x '' hi W " = true ∧
        (ofEcho.describe "echo x '' hi W " {}).mapError Sink.Refusal.cause =
          Sink.write "  WORD\t\n  <cr>\n\n" {} := by
  have hs : Shell.LoadedWith ">" [.ofList [.idle "echo .WORD" false 0]] ofEcho :=
    .load _ () .empty (by decide +kernel)
  have hexpand : ((expand ofEcho.root ["echo", "x"] false).map fun e => (e.values,
      e.last?.map fun n => (n.element, n.children.trees.length, n.handler.isSome, n.hidden))) =
        [([.word "echo", .word "x"],
          some (Element.ofArgspec ".WORD" "" false, 0, true, false))] := by
    decide +kernel
  obtain ⟨e, he, hfacts⟩ := List.map_eq_singleton_iff.mp hexpand
  obtain ⟨hvalues, hlast⟩ := Prod.mk.inj hfacts
  obtain ⟨n, hn, hnode⟩ := Option.map_eq_some_iff.mp hlast
  simp only [Prod.mk.injEq] at hnode
  obtain ⟨helement, hchildren, hhandler, hhidden⟩ := hnode
  have hkeyword : n.keyword = "WORD" := by
    rw [CommandTree.keyword, helement]
    decide +kernel
  have hchildless (k : String) : n.child? k = none := by
    rw [CommandTree.child?]
    cases hcs : n.children with
    | nil => rfl
    | cons key c rest => simp [hcs, Children.trees] at hchildren
  have hany : n.TakesAny :=
    ⟨by rw [helement]; decide +kernel, by rw [helement]; decide +kernel, hchildless⟩
  have hblank : endsBlank "echo x '' hi W " = true := by decide +kernel
  have hparse : parse "echo x '' hi W " = some (["echo", "x"] ++ ["", "hi", "W"]) := by
    decide +kernel
  obtain ⟨⟨d, hd, hdlast, hdvalues, -⟩, hhelp⟩ :=
    takes_any_number hs he hn hany hhandler ["", "hi", "W"]
  have hdescribe := hhelp _ hblank hparse {}
  rw [hkeyword, hhidden, helement] at hdescribe
  rw [hvalues, hkeyword] at hdvalues
  refine ⟨hs, e, n, he, hn, hany, hhandler, ⟨d, hd, hdlast, ?_⟩, hblank, hdescribe⟩
  rw [hdvalues]
  decide +kernel

end Shell

end Console
