import Console.Error
import Console.Tree.Basic

/-!
# Merging trees

Two trees with the same top keyword are united path by path. Where both have a node, the element of
the first stays, a handler of the second wins, and the node is hidden only if both are.

A merge can also be seen to change its target node by node: first the handler of a node and whether
it is hidden, then its children in the order of the source. A failure at a child leaves what has
been changed before.

* `CommandTree.merge`, `Children.merge`: the union;
* `Merged`, `CommandTree.mergeInto`, `Children.mergeInto`: the merge with what it leaves of its
  target, also after a failure;
* **`merge_eq_mergeInto`**: merging, as far as the target is only asked for after a success.
-/

namespace Console

universe u

variable {η : Type u}

mutual

/-- The union of two trees. -/
def CommandTree.merge (target : CommandTree η) : CommandTree η → Except Error (CommandTree η)
  | .node e h hidden cs =>
    if target.keyword = e.keyword then do
      let children ← Children.merge target.children cs
      return .node target.element (h.or target.handler) (target.hidden && hidden) children
    else .error (.rootMismatch target.keyword e.keyword)

/-- The union of the children of two nodes. -/
def Children.merge (target : Children η) : Children η → Except Error (Children η)
  | .nil => .ok target
  | .cons key child rest => do
    let united ← match target.get? key with
      | none => pure child
      | some old => CommandTree.merge old child
    Children.merge (target.insert key united) rest

end

/-! ## Merging in place -/

/-- What a merge leaves. -/
structure Merged (α : Type u) where
  result : Except Error Unit
  /-- The target as it is now, whatever the result. -/
  target : α

/-- The target after a success. -/
def Merged.toExcept {α : Type u} (m : Merged α) : Except Error α := m.result.map fun _ => m.target

theorem Merged.toExcept_eq_ok {α : Type u} {m : Merged α} {a : α} :
    m.toExcept = .ok a ↔ m.result = .ok () ∧ m.target = a := by
  obtain ⟨result, target⟩ := m
  cases result <;> simp [toExcept, Except.map]

mutual

/-- Merges a tree into another one. -/
def CommandTree.mergeInto (target : CommandTree η) : CommandTree η → Merged (CommandTree η)
  | .node e h hidden cs =>
    if target.keyword = e.keyword then
      let below := Children.mergeInto target.children cs
      ⟨below.result,
        .node target.element (h.or target.handler) (target.hidden && hidden) below.target⟩
    else ⟨.error (.rootMismatch target.keyword e.keyword), target⟩

/-- Merges children into others, one after another, up to the first that fails. -/
def Children.mergeInto (target : Children η) : Children η → Merged (Children η)
  | .nil => ⟨.ok (), target⟩
  | .cons key child rest =>
    match target.get? key with
    | none => Children.mergeInto (target.insert key child) rest
    | some old =>
      match CommandTree.mergeInto old child with
      | ⟨.ok (), united⟩ => Children.mergeInto (target.insert key united) rest
      | ⟨.error e, changed⟩ => ⟨.error e, target.insert key changed⟩

end

mutual

/-- **Merging, as far as the target is only asked for after a success.** -/
theorem CommandTree.merge_eq_mergeInto : ∀ source target : CommandTree η,
    target.merge source = (target.mergeInto source).toExcept
  | .node e h hidden cs, target => by
    rw [CommandTree.merge, CommandTree.mergeInto]
    split
    · rw [Children.merge_eq_mergeInto cs target.children]
      cases Children.mergeInto target.children cs with
      | mk result below => cases result <;> rfl
    · rfl

theorem Children.merge_eq_mergeInto : ∀ source target : Children η,
    target.merge source = (target.mergeInto source).toExcept
  | .nil, target => rfl
  | .cons key child rest, target => by
    rw [Children.merge, Children.mergeInto]
    cases target.get? key with
    | none => exact Children.merge_eq_mergeInto rest (target.insert key child)
    | some old =>
      dsimp only
      rw [CommandTree.merge_eq_mergeInto child old]
      cases CommandTree.mergeInto old child with
      | mk result united =>
        cases result with
        | ok => exact Children.merge_eq_mergeInto rest (target.insert key united)
        | error e => rfl

end

namespace CommandTree

theorem mergeInto_of_ne {target source : CommandTree η} (h : target.keyword ≠ source.keyword) :
    target.mergeInto source =
      ⟨.error (.rootMismatch target.keyword source.keyword), target⟩ := by
  cases source
  exact if_neg h

theorem mergeInto_of_merge {target source t : CommandTree η} (h : target.merge source = .ok t) :
    (target.mergeInto source).result = .ok () ∧ (target.mergeInto source).target = t := by
  rw [merge_eq_mergeInto] at h
  exact Merged.toExcept_eq_ok.mp h

end CommandTree

end Console
