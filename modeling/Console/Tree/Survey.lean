import Console.Tree.Basic

/-!
# Surveying a tree

* `CommandTree.survey`: every node with the path of keywords to it, each node before those below it;
* `CommandTree.size`, `CommandTree.endpoints`: the number of nodes, and of those with a handler.
-/

namespace Console

universe u

variable {η : Type u}

mutual

/-- The nodes from `t` on, where `path` leads to `t`. -/
def CommandTree.surveyFrom (path : List String) : CommandTree η →
    List (List String × CommandTree η)
  | .node e h hidden cs => (path, .node e h hidden cs) :: Children.surveyFrom path cs

/-- The nodes below a node to which `path` leads. -/
def Children.surveyFrom (path : List String) : Children η → List (List String × CommandTree η)
  | .nil => []
  | .cons key child rest =>
    CommandTree.surveyFrom (path ++ [key]) child ++ Children.surveyFrom path rest

end

namespace CommandTree

/-- Every node with the path to it. -/
def survey (t : CommandTree η) : List (List String × CommandTree η) := t.surveyFrom []

/-- The number of nodes. -/
def size (t : CommandTree η) : Nat := t.survey.length

/-- The number of nodes with a handler. -/
def endpoints (t : CommandTree η) : Nat := t.survey.countP fun p => p.2.handler.isSome

end CommandTree

end Console
