import Console.Element

/-!
# Command trees

Commands are stored in a tree of elements. A node may carry a handler, which makes the path to it
a complete command; it may be hidden from help; and its children are stored by key, in ascending
order of the keys.

* `CommandTree`, `Children`;
* `Children.get?`, `Children.insert`: children by key;
* `CommandTree.lookup`: the node at the end of a path of keys.
-/

namespace Console

universe u

mutual

/-- A node with all that is below it. Its handler is of type `η`. -/
inductive CommandTree (η : Type u) : Type u where
  | node (element : Element) (handler : Option η) (hidden : Bool) (children : Children η)

/-- The children of a node, by key. -/
inductive Children (η : Type u) : Type u where
  | nil
  | cons (key : String) (child : CommandTree η) (rest : Children η)

end

variable {η : Type u}

/-! ## Children by key -/

namespace Children

instance : Inhabited (Children η) := ⟨nil⟩

/-- The child stored under `key`. -/
def get? (key : String) : Children η → Option (CommandTree η)
  | nil => none
  | cons k c rest => if k = key then some c else rest.get? key

/-- Stores `child` under `key`, in place of what is there. -/
def insert (key : String) (child : CommandTree η) : Children η → Children η
  | nil => cons key child nil
  | cons k c rest =>
    if key < k then cons key child (cons k c rest)
    else if key = k then cons key child rest
    else cons k c (rest.insert key child)

/-- The children in the order of their keys. -/
def trees : Children η → List (CommandTree η)
  | nil => []
  | cons _ c rest => c :: rest.trees

theorem get?_insert_self (key : String) (child : CommandTree η) (cs : Children η) :
    (cs.insert key child).get? key = some child := by
  fun_induction insert key child cs with
  | case1 => simp [get?]
  | case2 => simp [get?]
  | case3 => simp [get?]
  | case4 k c rest _ hk ih => simp [get?, Ne.symm hk, ih]

theorem get?_insert_of_ne {key other : String} (h : other ≠ key) (child : CommandTree η)
    (cs : Children η) : (cs.insert key child).get? other = cs.get? other := by
  fun_induction insert key child cs with
  | case1 => simp [get?, Ne.symm h]
  | case2 => simp [get?, Ne.symm h]
  | case3 => simp [get?, Ne.symm h]
  | case4 k c rest _ _ ih => simp [get?, ih]

end Children

/-! ## Nodes -/

namespace CommandTree

/-- The element of a node. -/
def element : CommandTree η → Element
  | node e _ _ _ => e

/-- The handler of a node. -/
def handler : CommandTree η → Option η
  | node _ h _ _ => h

/-- A node that help and completion leave out. -/
def hidden : CommandTree η → Bool
  | node _ _ hidden _ => hidden

/-- The children of a node. -/
def children : CommandTree η → Children η
  | node _ _ _ cs => cs

/-- What a node is known by. -/
def keyword (t : CommandTree η) : String := t.element.keyword

/-- A node without handler and children. -/
def leaf (e : Element) (hidden : Bool) : CommandTree η := node e none hidden .nil

/-- The tree without commands. -/
def root : CommandTree η := leaf Element.root false

instance : Inhabited (CommandTree η) := ⟨root⟩

/-- The child stored under `key`. -/
def child? (t : CommandTree η) (key : String) : Option (CommandTree η) := t.children.get? key

/-- The node at the end of a path of keys. -/
def lookup (t : CommandTree η) : List String → Option (CommandTree η)
  | [] => some t
  | key :: keys => (t.child? key).bind (·.lookup keys)

end CommandTree

end Console
