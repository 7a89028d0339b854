import Console.Proofs.Tree.Compose
import Mathlib.Data.List.Nodup

/-!
# Readings step by step

What an expansion is made of: each step goes on from the node before it, and its value is what its
fragment stands for at its own node.

* `Step.From`: a step from a node, for a fragment; **`from_of_mem_stepsFor`**;
* `CommandTree.Follows`: steps one after another, each from the node that the one before it has
  reached; **`Walks.follows`**;
* `nodup_nodes_stepsFor`: the steps for one fragment lead to distinct nodes;
* **`expand_follows`**: the expansions of some fragments.
-/

namespace Console

universe u

variable {η : Type u}

/-- A step from the node `t` that the fragment `f` stands for. It leads to a child, or stays where
the node may be repeated. Its value is the keyword of its node if the fragment begins that keyword,
and otherwise what the converter of its node makes of the fragment. -/
structure Step.From (t : CommandTree η) (f : String) (s : Step η) : Prop where
  place : (∃ k, t.child? k = some s.node) ∨ s.node = t ∧ t.element.isRecursive = true
  keyword : f.toList <+: s.node.keyword.toList → s.value = .word s.node.keyword
  converted : ¬ f.toList <+: s.node.keyword.toList →
    ∃ c, s.node.element.converter = some c ∧ c.apply f = some s.value

namespace Children

theorem keys_eq_map_keyword {cs : Children η} (h : cs.Sound) :
    cs.keys = cs.trees.map CommandTree.keyword := by
  fun_induction keys cs with
  | case1 => rfl
  | case2 k c rest ih =>
    obtain ⟨rfl, -, -, hrest⟩ := h
    rw [trees, List.map_cons, ih hrest]

theorem pairwise_trees {cs : Children η} (h : cs.Sound) :
    cs.trees.Pairwise fun c d => c.keyword < d.keyword := by
  fun_induction trees cs with
  | case1 => exact .nil
  | case2 k c rest ih =>
    obtain ⟨rfl, -, hlt, hrest⟩ := h
    refine List.pairwise_cons.mpr ⟨fun d hd => hlt d.keyword ?_, ih hrest⟩
    rw [keys_eq_map_keyword hrest]
    exact List.mem_map_of_mem hd

theorem nodup_keys {cs : Children η} (h : cs.Sound) : cs.keys.Nodup := by
  fun_induction keys cs with
  | case1 => exact List.nodup_nil
  | case2 k c rest ih =>
    obtain ⟨-, -, hlt, hrest⟩ := h
    exact List.nodup_cons.mpr ⟨fun hk => lt_irrefl k (hlt k hk), ih hrest⟩

theorem nodup_trees {cs : Children η} (h : cs.Sound) : cs.trees.Nodup :=
  List.Nodup.of_map CommandTree.keyword (keys_eq_map_keyword h ▸ nodup_keys h)

end Children

namespace CommandTree

/-! ## One step -/

theorem from_of_mem_stepsFor {t : CommandTree η} (ht : t.Sound) {f : String} {s : Step η}
    (h : s ∈ t.stepsFor f) : s.From t f := by
  obtain ⟨hparse, hplace⟩ := parse_of_mem_stepsFor ht h
  refine ⟨hplace, fun hprefix => ?_, fun hprefix => ?_⟩
  · rw [parse_of_begins hprefix, Option.some.injEq] at hparse
    exact hparse.symm
  · rw [parse_of_not_begins hprefix] at hparse
    exact Option.bind_eq_some_iff.mp hparse

theorem nodup_nodes_stepsFor {t : CommandTree η} (ht : t.Sound) (f : String) :
    ((t.stepsFor f).map Step.node).Nodup := by
  unfold stepsFor
  split
  · exact List.nodup_singleton _
  · split
    · exact List.nodup_singleton _
    · have hnodes : (t.children.trees.filterMap fun c =>
          (c.parse f).map (⟨·, c, false⟩)).map Step.node =
            t.children.trees.filter fun c => (c.parse f).isSome := by
        rw [List.map_filterMap, ← List.filterMap_eq_filter]
        refine List.filterMap_congr fun c _ => ?_
        cases h : c.parse f <;> simp [Option.guard, h]
      rw [hnodes]
      exact (Children.nodup_trees (sound_iff.mp ht)).filter _

/-! ## Steps one after another -/

/-- Steps for some fragments, each from the node that the step before it has reached. -/
inductive Follows : CommandTree η → List String → List (Step η) → Prop where
  | nil (t : CommandTree η) : Follows t [] []
  | cons {t : CommandTree η} {f : String} {fs : List String} {s : Step η} {ss : List (Step η)}
    (first : s.From t f) (rest : Follows s.node fs ss) : Follows t (f :: fs) (s :: ss)

theorem Walks.follows {t : CommandTree η} {fs : List String} {ss : List (Step η)}
    (h : t.Walks fs ss) (ht : t.Sound) : t.Follows fs ss := by
  induction h with
  | nil t => exact .nil t
  | @cons t f fs s ss only rest ih =>
    have hs : s ∈ t.stepsFor f := only ▸ List.mem_singleton_self s
    exact .cons (from_of_mem_stepsFor ht hs) (ih (sound_of_mem_stepsFor ht hs))

theorem Follows.snoc {t : CommandTree η} {fs : List String} {ss : List (Step η)}
    (h : t.Follows fs ss) {f : String} {s : Step η}
    (hs : s.From ((Expansion.mk ss).reached t) f) : t.Follows (fs ++ [f]) (ss ++ [s]) := by
  induction h with
  | nil t => exact .cons hs (.nil s.node)
  | cons first rest ih =>
    rw [Expansion.reached_cons] at hs
    exact .cons first (ih hs)

/-! ## The expansions of some fragments -/

/-- **The expansions of some fragments,** in a sound tree. Each consists of steps for fragments from
the first on, each step from the node before it. All have every step but the last in common, and
their last nodes are distinct. A single one has a step for every fragment; if there are more, they
end with the first fragment that has more than one step. -/
theorem expand_follows {t : CommandTree η} (ht : t.Sound) (fs : List String) :
    let es := expand t fs false
    (∀ e ∈ es, e.values.length = e.nodes.length ∧
      t.Follows (fs.take e.steps.length) e.steps) ∧
    (∃ shared, ∀ e ∈ es, ∃ s, e.steps = shared ++ [s]) ∧
    es.Pairwise (fun d e => d.last? ≠ e.last?) ∧
    (es.length < 2 → ∀ e ∈ es, e.steps.length = fs.length) ∧
    (2 ≤ es.length → ∃ before f after ss, fs = before ++ f :: after ∧ t.Walks before ss ∧
      2 ≤ (((Expansion.mk ss).reached t).stepsFor f).length ∧
      ∀ e ∈ es, e.steps.length = before.length + 1) := by
  intro es
  by_cases hfs : fs = []
  · subst hfs
    have hes : es = [] := rfl
    rw [hes]
    exact ⟨nofun, ⟨[], nofun⟩, .nil, nofun, nofun⟩
  obtain ⟨before, f, after, ss, hsplit, hwalk, hlast⟩ := exists_walks_before t hfs
  have hread := expand_of_last hwalk hlast
  rw [← hsplit] at hread
  have hsound := hwalk.sound_reached ht
  have hnodup := nodup_nodes_stepsFor hsound f
  generalize hoptions : ((Expansion.mk ss).reached t).stepsFor f = options at hread hlast hnodup ⊢
  have hes : es = options.map (Expansion.mk ss).extend := hread
  have hcount : es.length = options.length := by rw [hes, List.length_map]
  have hlength : ss.length = before.length := hwalk.length_eq
  have hsteps : ∀ e ∈ es, ∃ s ∈ options, e.steps = ss ++ [s] := by
    intro e he
    rw [hes] at he
    obtain ⟨s, hs, rfl⟩ := List.mem_map.mp he
    exact ⟨s, hs, rfl⟩
  have hfull : ∀ e ∈ es, e.steps.length = before.length + 1 := by
    intro e he
    obtain ⟨s, -, hs⟩ := hsteps e he
    rw [hs, List.length_append, hlength, List.length_singleton]
  refine ⟨fun e he => ⟨?_, ?_⟩, ⟨ss, fun e he => ?_⟩, ?_, fun hfew e he => ?_, fun hmany => ?_⟩
  · rw [Expansion.values, Expansion.nodes, List.length_map, List.length_map]
  · obtain ⟨s, hs, hlastStep⟩ := hsteps e he
    have hused : fs.take e.steps.length = before ++ [f] := by
      rw [hfull e he, hsplit, List.take_length_add_append]
      rfl
    rw [hused, hlastStep]
    exact (hwalk.follows ht).snoc (from_of_mem_stepsFor hsound (hoptions ▸ hs))
  · obtain ⟨s, -, hs⟩ := hsteps e he
    exact ⟨s, hs⟩
  · rw [List.Nodup, List.pairwise_map] at hnodup
    rw [hes, List.pairwise_map]
    exact hnodup.imp fun hne heq => hne (by simpa [Expansion.last?, Expansion.extend] using heq)
  · have hone : options.length = 1 := by
      have := List.length_pos_of_mem he
      omega
    rw [hfull e he, hsplit, hlast hone, List.length_append, List.length_singleton]
  · exact ⟨before, f, after, ss, hsplit, hwalk, by rw [hoptions, ← hcount]; exact hmany, hfull⟩

/-- The expansions of fragments that are ambiguous at the second: they have two steps, of which the
first is shared, and end at distinct nodes. -/
theorem expand_follows_show :
    let t := ofLines [["show", "ip"], ["show", "IFNAME"], ["shut", ".WORD"]]
    t.Sound ∧ (expand t ["show", "i", "x"] false).map Expansion.values =
        [[.word "show", .word "i"], [.word "show", .word "ip"]] ∧
      (expand t ["show", "i", "x"] false).Pairwise (fun d e => d.last? ≠ e.last?) ∧
      (∀ e ∈ expand t ["show", "i", "x"] false,
        t.Follows (["show", "i", "x"].take e.steps.length) e.steps) ∧
      ∃ shared, ∀ e ∈ expand t ["show", "i", "x"] false, ∃ s, e.steps = shared ++ [s] := by
  intro t
  have ht : t.Sound := sound_ofLines _
  obtain ⟨hwalks, hshared, hdistinct, -⟩ := expand_follows ht ["show", "i", "x"]
  exact ⟨ht, by decide +kernel, hdistinct, fun e he => (hwalks e he).2, hshared⟩

end CommandTree

end Console
