import Console.Proofs.Tree.Mirror

/-!
# Trees with other handlers

What fragments are expanded to does not depend on what the handlers in a tree are. With another
handler in place of each, a tree has the same expansions, which go through the same places.

* `CommandTree.map`, `Children.map`: a tree with another handler in place of each;
* `CommandTree.mirrors_map`, **`expand_map`**: expansions in such a tree.
-/

namespace Console

universe u v

variable {η : Type u} {θ : Type v}

mutual

/-- A tree with another handler in place of each. -/
def CommandTree.map (g : η → θ) : CommandTree η → CommandTree θ
  | .node e handler hidden cs => .node e (handler.map g) hidden (cs.map g)

/-- Children with another handler in place of each. -/
def Children.map (g : η → θ) : Children η → Children θ
  | .nil => .nil
  | .cons key child rest => .cons key (child.map g) (rest.map g)

end

variable (g : η → θ)

namespace Children

theorem get?_map (key : String) (cs : Children η) :
    (cs.map g).get? key = (cs.get? key).map (CommandTree.map g) := by
  fun_induction get? key cs with
  | case1 => rfl
  | case2 c rest => simp [map, get?]
  | case3 k c rest hk ih => simp [map, get?, hk, ih]

theorem trees_map (cs : Children η) : (cs.map g).trees = cs.trees.map (CommandTree.map g) := by
  fun_induction trees cs with
  | case1 => rfl
  | case2 k c rest ih => simp [map, trees, ih]

end Children

namespace CommandTree

theorem element_map (t : CommandTree η) : (t.map g).element = t.element := by
  cases t
  rfl

theorem handler_map (t : CommandTree η) : (t.map g).handler = t.handler.map g := by
  cases t
  rfl

theorem children_map (t : CommandTree η) : (t.map g).children = t.children.map g := by
  cases t
  rfl

theorem child?_map (t : CommandTree η) (key : String) :
    (t.map g).child? key = (t.child? key).map (map g) := by
  rw [child?, child?, children_map, Children.get?_map]

theorem parse_map (t : CommandTree η) (f : String) : (t.map g).parse f = t.parse f := by
  rw [parse, parse, keyword, keyword, element_map]

theorem mirrors_map : Mirrors (map g) where
  parse := parse_map g
  isRecursive t := by rw [element_map]
  isArgument t := by rw [element_map]
  handler t := by rw [handler_map, Option.isSome_map]
  child? := child?_map g
  trees t := by rw [children_map, Children.trees_map]

end CommandTree

theorem Expansion.handler_last?_map (e : Expansion η) :
    (e.mirror (CommandTree.map g)).last?.bind CommandTree.handler =
      (e.last?.bind CommandTree.handler).map g := by
  rw [last?_mirror]
  cases e.last? with
  | none => rfl
  | some n => exact n.handler_map g

/-- **Fragments have the same expansions, whatever the handlers are.** -/
theorem expand_map (t : CommandTree η) (fs : List String) (lookahead : Bool) :
    expand (t.map g) fs lookahead =
      (expand t fs lookahead).map (Expansion.mirror (CommandTree.map g)) :=
  (CommandTree.mirrors_map g).expandFrom_eq t .start lookahead fs

end Console
