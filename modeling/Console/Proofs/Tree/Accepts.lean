import Console.Proofs.Tree.Follows

/-!
# Nodes that accept a fragment

A fragment that is no key of a child, and that the node itself does not take, has one step to each
child that accepts it.

* `CommandTree.Accepts`: a node that a fragment may lead to;
* `CommandTree.Open`, `stepsFor_of_open`, `mem_stepsFor_of_open`: the steps for a fragment that only
  children take;
* `stepsFor_eq_singleton`: a fragment with one step.
-/

namespace Console

universe u

variable {η : Type u}

namespace CommandTree

/-! ## Nodes that accept a fragment -/

/-- The fragment begins the keyword of the node, or its converter takes the fragment. -/
def Accepts (t : CommandTree η) (f : String) : Prop :=
  f.toList <+: t.keyword.toList ∨ ∃ c v, t.element.converter = some c ∧ c.apply f = some v

theorem accepts_iff {t : CommandTree η} {f : String} :
    t.Accepts f ↔ ∃ v, t.parse f = some v := by
  by_cases hprefix : f.toList <+: t.keyword.toList
  · simp [Accepts, parse_of_begins hprefix, hprefix]
  · simp only [Accepts, parse_of_not_begins hprefix, hprefix, Option.bind_eq_some_iff, false_or]
    exact exists_comm

instance decidableAccepts (t : CommandTree η) (f : String) : Decidable (t.Accepts f) :=
  decidable_of_iff ((t.parse f).isSome = true) (Option.isSome_iff_exists.trans accepts_iff.symm)

/-! ## Fragments that only children take -/

/-- Neither a key nor the node itself takes the fragment. -/
structure Open (t : CommandTree η) (f : String) : Prop where
  free : t.child? f = none
  plain : t.element.isRecursive = true → t.parse f = none

theorem stepsFor_of_open {t : CommandTree η} {f : String} (h : t.Open f) :
    t.stepsFor f = t.children.trees.filterMap fun c => (c.parse f).map (⟨·, c, false⟩) := by
  have hself : (if t.element.isRecursive then t.parse f else none) = none := by
    split_ifs with hrec
    · exact h.plain hrec
    · rfl
  simp only [stepsFor, h.free, hself]

theorem mem_stepsFor_of_open {t : CommandTree η} {f : String} (h : t.Open f) {s : Step η} :
    s ∈ t.stepsFor f ↔
      s.node ∈ t.children.trees ∧ s.node.parse f = some s.value ∧ s.stays = false := by
  rw [stepsFor_of_open h, List.mem_filterMap]
  constructor
  · rintro ⟨c, hc, hs⟩
    obtain ⟨v, hv, rfl⟩ := Option.map_eq_some_iff.mp hs
    exact ⟨hc, hv, rfl⟩
  · rintro ⟨hc, hv, hstays⟩
    obtain ⟨value, node, stays⟩ := s
    obtain rfl : stays = false := hstays
    exact ⟨node, hc, Option.map_eq_some_iff.mpr ⟨value, hv, rfl⟩⟩

theorem stepsFor_eq_singleton {t : CommandTree η} (ht : t.Sound) {f : String} {s : Step η}
    (h : ∀ s', s' ∈ t.stepsFor f ↔ s' = s) : t.stepsFor f = [s] := by
  have hnodup : (t.stepsFor f).Nodup := .of_map Step.node (nodup_nodes_stepsFor ht f)
  have hperm := (List.perm_ext_iff_of_nodup hnodup (List.nodup_singleton s)).mpr fun s' =>
    (h s').trans List.mem_singleton.symm
  exact List.perm_singleton.mp hperm

end CommandTree

end Console
