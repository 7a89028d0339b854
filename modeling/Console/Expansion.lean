import Console.Tree.Match

/-!
# Expansions

The ways to read a list of fragments as a walk through a tree.

* `Expansion`: one walk, its values and its nodes;
* `expand`: all readings of a list of fragments. A fragment that fits nowhere leaves none; one that
  fits more than one node ends the walk, with one reading for each. When all fragments have one
  reading, a look ahead adds what may come next, and then the walk itself if it is a command.
-/

namespace Console

universe u

variable {η : Type u}

/-- A walk through a tree. -/
structure Expansion (η : Type u) where
  steps : List (Step η)

namespace Expansion

/-- The walk that has not begun. -/
def start : Expansion η := ⟨[]⟩

/-- What the fragments stand for. -/
def values (e : Expansion η) : List Value := e.steps.map Step.value

/-- The nodes after each step. -/
def nodes (e : Expansion η) : List (CommandTree η) := e.steps.map Step.node

/-- The node at the end. -/
def last? (e : Expansion η) : Option (CommandTree η) := e.steps.getLast?.map Step.node

/-- A walk with one more step. -/
def extend (e : Expansion η) (s : Step η) : Expansion η := ⟨e.steps ++ [s]⟩

/-- The values of the steps to elements that are arguments. -/
def arguments (e : Expansion η) : List Value :=
  (e.steps.filter (·.node.element.isArgument)).map Step.value

end Expansion

/-- The readings of some fragments, from a node that the walk so far has reached. -/
def expandFrom (node : CommandTree η) (walk : Expansion η) (lookahead : Bool) :
    List String → List (Expansion η)
  | [] =>
    if lookahead then
      (node.stepsFor "").map walk.extend ++ if node.handler.isSome then [walk] else []
    else if walk.steps.isEmpty then [] else [walk]
  | f :: fs =>
    match node.stepsFor f with
    | [s] => expandFrom s.node (walk.extend s) lookahead fs
    | ss => ss.map walk.extend

/-- The readings of some fragments from the top of a tree. -/
def expand (root : CommandTree η) (fragments : List String) (lookahead : Bool) :
    List (Expansion η) :=
  expandFrom root .start lookahead fragments

end Console
