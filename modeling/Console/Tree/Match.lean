import Console.Tree.Basic

/-!
# Matching a fragment at a node

A typed fragment stands for a keyword that it abbreviates, or for a value that a typed place takes.

* `CommandTree.parse`: the value of a fragment at one node;
* `CommandTree.stepsFor`: the nodes that a fragment may lead to from a node.
-/

namespace Console

universe u

variable {η : Type u}

/-- One step of a walk through a tree. -/
structure Step (η : Type u) where
  /-- What the fragment stands for. -/
  value : Value
  /-- The node that the step leads to. -/
  node : CommandTree η
  /-- The step stays at a node that may be repeated. -/
  stays : Bool

namespace CommandTree

/-- The value of a fragment at a node: its keyword, where the fragment abbreviates it, or else what
its converter makes of the fragment. -/
def parse (t : CommandTree η) (fragment : String) : Option Value :=
  if fragment.toList.isPrefixOf t.keyword.toList then some (.word t.keyword)
  else t.element.converter.bind (·.apply fragment)

/-- The steps that a fragment may stand for. A child whose key is the fragment is the only one; a
node that may be repeated takes any other fragment that fits it; otherwise every child that the
fragment fits is one, in the order of the keys. -/
def stepsFor (t : CommandTree η) (fragment : String) : List (Step η) :=
  match t.child? fragment with
  | some child => [⟨.word fragment, child, false⟩]
  | none =>
    match if t.element.isRecursive then t.parse fragment else none with
    | some value => [⟨value, t, true⟩]
    | none => t.children.trees.filterMap fun c => (c.parse fragment).map (⟨·, c, false⟩)

end CommandTree

end Console
