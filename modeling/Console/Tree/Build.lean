import Console.Spec.Path
import Console.Tree.Basic

/-!
# Adding commands to a tree

A command is attached along every path that its specification denotes. A node that is already there
keeps its element and stays hidden only if the new command is hidden too; the handler goes to the
end of the path, in place of the one there.

* `CommandTree.attach`: one path;
* `CommandTree.build`: all paths of some tokens, in order.
-/

namespace Console

universe u

variable {η : Type u}

namespace CommandTree

/-- The node that stands for `e` below a node: the child there, or else a new one. -/
def stepInto (e : Element) (hidden : Bool) : Option (CommandTree η) → CommandTree η
  | none => leaf e hidden
  | some (node f h old cs) => node f h (old && hidden) cs

/-- Attaches a handler at the end of one path. -/
def attach (handler : η) (hidden : Bool) : List Element → CommandTree η → CommandTree η
  | [], node f _ old cs => node f (some handler) old cs
  | e :: es, node f h old cs =>
    let child := attach handler hidden es (stepInto e hidden (cs.get? e.keyword))
    node f h old (cs.insert e.keyword child)

/-- Attaches a handler at the end of every path of some tokens. -/
def build (tokens : List Token) (handler : η) (hidden : Bool) (t : CommandTree η) :
    CommandTree η :=
  (Token.paths tokens).foldl (fun t path => attach handler hidden path t) t

end CommandTree

end Console
