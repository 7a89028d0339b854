import Console.Proofs.Tree.Equality
import Console.Proofs.Tree.Mirror

/-!
# Bare trees

Of the elements in a tree, a line shows neither how they were written nor how they are described,
and it does not show which nodes are hidden. A bare tree is what is left without these.

* `Element.bare`, `Label.bare`, `CommandTree.bare`, `Children.bare`;
* `Children.bare_eq_of_labelAt`: sound children whose labels are bare the same are bare the same;
* **`map_bare_expandFrom`**: lines are expanded in a bare tree as in the tree;
* **`map_bare_expand_eq`**: below the root, what a line is expanded to depends on the bare children
  only.
-/

namespace Console

universe u

variable {η : Type u}

/-! ## Without what does not show -/

/-- An element without the way it was written and described. -/
def Element.bare (e : Element) : Element := { e with argspec := "", description := "" }

/-- A label without what a line does not show. -/
def Label.bare (l : Label η) : Label η := ⟨l.element.bare, l.handler, false⟩

mutual

/-- A tree without what a line does not show. -/
def CommandTree.bare : CommandTree η → CommandTree η
  | .node e handler _ cs => .node e.bare handler false cs.bare

/-- Children without what a line does not show. -/
def Children.bare : Children η → Children η
  | .nil => .nil
  | .cons key child rest => .cons key child.bare rest.bare

end

namespace Children

theorem get?_bare (key : String) (cs : Children η) :
    cs.bare.get? key = (cs.get? key).map CommandTree.bare := by
  fun_induction get? key cs with
  | case1 => rfl
  | case2 c rest => simp [bare, get?]
  | case3 k c rest hk ih => simp [bare, get?, hk, ih]

theorem trees_bare (cs : Children η) : cs.bare.trees = cs.trees.map CommandTree.bare := by
  fun_induction trees cs with
  | case1 => rfl
  | case2 k c rest ih => simp [bare, trees, ih]

theorem keys_bare (cs : Children η) : cs.bare.keys = cs.keys := by
  fun_induction keys cs with
  | case1 => rfl
  | case2 k c rest ih => simp [bare, keys, ih]

end Children

namespace CommandTree

theorem element_bare (t : CommandTree η) : t.bare.element = t.element.bare := by
  cases t
  rfl

theorem keyword_bare (t : CommandTree η) : t.bare.keyword = t.keyword := by
  cases t
  rfl

theorem children_bare (t : CommandTree η) : t.bare.children = t.children.bare := by
  cases t
  rfl

theorem label_bare (t : CommandTree η) : t.bare.label = t.label.bare := by
  cases t
  rfl

theorem child?_bare (t : CommandTree η) (key : String) :
    t.bare.child? key = (t.child? key).map bare := by
  rw [child?, child?, children_bare, Children.get?_bare]

theorem labelAt_bare (t : CommandTree η) (p : List String) :
    t.bare.labelAt p = (t.labelAt p).map Label.bare := by
  induction p generalizing t with
  | nil => rw [labelAt_nil, labelAt_nil, label_bare, Option.map_some]
  | cons k p ih =>
    rw [labelAt_cons, labelAt_cons, child?_bare]
    cases t.child? k with
    | none => rfl
    | some c => exact ih c

end CommandTree

mutual

theorem CommandTree.sound_bare : ∀ t : CommandTree η, t.Sound → t.bare.Sound
  | .node _ _ _ cs, h => Children.sound_bare cs h

theorem Children.sound_bare : ∀ cs : Children η, cs.Sound → cs.bare.Sound
  | .nil, _ => trivial
  | .cons _ child rest, ⟨hkey, hchild, hlt, hrest⟩ =>
    ⟨child.keyword_bare.trans hkey, child.sound_bare hchild, by rwa [rest.keys_bare],
      rest.sound_bare hrest⟩

end

/-- **Sound children whose labels are bare the same are bare the same.** -/
theorem Children.bare_eq_of_labelAt {t u : CommandTree η} (ht : t.Sound) (hu : u.Sound)
    (h : ∀ p ≠ [], (t.labelAt p).map Label.bare = (u.labelAt p).map Label.bare) :
    t.children.bare = u.children.bare := by
  refine ext_of_labelAt _ _ (sound_bare _ (CommandTree.sound_iff.mp ht))
    (sound_bare _ (CommandTree.sound_iff.mp hu)) fun k p => ?_
  have hlabelAt (v : CommandTree η) :
      v.children.bare.labelAt k p = (v.labelAt (k :: p)).map Label.bare := by
    rw [← CommandTree.labelAt_bare, CommandTree.labelAt_cons, labelAt, ← CommandTree.children_bare]
    rfl
  rw [hlabelAt, hlabelAt, h _ (List.cons_ne_nil k p)]

/-! ## Lines in a bare tree -/

/-- A step in the bare tree. -/
def Step.bare (s : Step η) : Step η := ⟨s.value, s.node.bare, s.stays⟩

/-- A walk in the bare tree. -/
def Expansion.bare (e : Expansion η) : Expansion η := ⟨e.steps.map Step.bare⟩

namespace Expansion

theorem last?_bare (e : Expansion η) : e.bare.last? = e.last?.map CommandTree.bare :=
  e.last?_mirror CommandTree.bare

end Expansion

namespace CommandTree

theorem parse_bare (t : CommandTree η) (f : String) : t.bare.parse f = t.parse f := by
  rw [parse, parse, keyword_bare, element_bare]
  rfl

theorem mirrors_bare : Mirrors (bare : CommandTree η → CommandTree η) where
  parse := parse_bare
  isRecursive t := by rw [element_bare, Element.bare]
  isArgument t := by rw [element_bare, Element.bare]
  handler t := by
    cases t
    rfl
  child? := child?_bare
  trees t := by rw [children_bare, Children.trees_bare]

end CommandTree

theorem Expansion.arguments_bare (e : Expansion η) : e.bare.arguments = e.arguments :=
  CommandTree.mirrors_bare.arguments_eq e

/-- **Lines are expanded in a bare tree as in the tree.** -/
theorem map_bare_expandFrom (t : CommandTree η) (walk : Expansion η) (fs : List String) :
    expandFrom t.bare walk.bare false fs = (expandFrom t walk false fs).map Expansion.bare :=
  CommandTree.mirrors_bare.expandFrom_eq t walk false fs

/-- Some children below the empty tree. -/
def Children.underRoot (cs : Children η) : CommandTree η := .node .root none false cs

theorem expand_underRoot {t : CommandTree η} (ht : t.element = .root) (fs : List String) :
    expand t fs false = expand t.children.underRoot fs false := by
  cases fs with
  | nil => rfl
  | cons f fs =>
    -- A root may not be repeated, so that no step stays at it and shows its handler.
    have hsteps : t.stepsFor f = t.children.underRoot.stepsFor f := by
      obtain ⟨e, handler, hidden, cs⟩ := t
      obtain rfl : e = .root := ht
      rfl
    rw [expand, expand, expandFrom, expandFrom, hsteps]

/-- **Below the root, what a line is expanded to depends on the bare children only.** -/
theorem map_bare_expand_eq {t u : CommandTree η} (ht : t.element = .root) (hu : u.element = .root)
    (h : t.children.bare = u.children.bare) (fs : List String) :
    (expand t fs false).map Expansion.bare = (expand u fs false).map Expansion.bare := by
  have hbare : t.children.underRoot.bare = u.children.underRoot.bare := by
    rw [Children.underRoot, Children.underRoot, CommandTree.bare, CommandTree.bare, h]
  rw [expand_underRoot ht, expand_underRoot hu, expand, expand, ← map_bare_expandFrom,
    ← map_bare_expandFrom, hbare]

end Console
