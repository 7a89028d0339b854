import Console.Tree.Build
import Console.Tree.Merge
import Mathlib.Data.String.Basic

/-!
# Sound trees

A tree is sound when at every node the keys of the children ascend and each child is stored under
its own keyword. All trees that the console makes are sound.

* `Children.Sound`, `CommandTree.Sound`;
* `Children.sound_insert`, `Children.sound_of_get?`: storing and finding a child;
* **`sound_attach`**, **`sound_build`**: adding commands keeps a tree sound.
-/

namespace Console

universe u

variable {η : Type u}

/-- The keys of some children, in their order. -/
def Children.keys : Children η → List String
  | .nil => []
  | .cons key _ rest => key :: rest.keys

mutual

/-- Below a node, keys ascend and each child is stored under its own keyword. -/
def CommandTree.Sound : CommandTree η → Prop
  | .node _ _ _ cs => cs.Sound

/-- Keys ascend, and each child is stored under its own keyword, here and below. -/
def Children.Sound : Children η → Prop
  | .nil => True
  | .cons key child rest =>
    child.keyword = key ∧ child.Sound ∧ (∀ k ∈ rest.keys, key < k) ∧ rest.Sound

end

/-! ## Children -/

namespace Children

theorem get?_eq_none {key : String} {cs : Children η} : cs.get? key = none ↔ key ∉ cs.keys := by
  fun_induction get? key cs with
  | case1 => simp [keys]
  | case2 => simp [keys]
  | case3 k c rest hk ih => simp [keys, ih, Ne.symm hk]

theorem get?_of_lt {key : String} {cs : Children η} (h : ∀ k ∈ cs.keys, key < k) :
    cs.get? key = none :=
  get?_eq_none.mpr fun hk => lt_irrefl key (h key hk)

theorem mem_keys_insert {key k : String} {child : CommandTree η} {cs : Children η} :
    k ∈ (cs.insert key child).keys ↔ k = key ∨ k ∈ cs.keys := by
  fun_induction insert key child cs with
  | case1 => simp [keys]
  | case2 => simp [keys]
  | case3 => simp [keys]
  | case4 _ _ _ _ _ ih => simp [keys, ih, or_left_comm]

theorem sound_insert {key : String} {child : CommandTree η} {cs : Children η} (hcs : cs.Sound)
    (hk : child.keyword = key) (hc : child.Sound) : (cs.insert key child).Sound := by
  fun_induction insert key child cs with
  | case1 => exact ⟨hk, hc, fun k h => absurd h List.not_mem_nil, trivial⟩
  | case2 k c rest hlt =>
    refine ⟨hk, hc, fun k' h => ?_, hcs⟩
    rcases List.mem_cons.mp h with rfl | h
    · exact hlt
    · exact hlt.trans (hcs.2.2.1 k' h)
  | case3 c rest => exact ⟨hk, hc, hcs.2.2⟩
  | case4 k c rest hlt hne ih =>
    obtain ⟨h1, h2, h3, h4⟩ := hcs
    refine ⟨h1, h2, fun k' h => ?_, ih h4⟩
    rcases mem_keys_insert.mp h with rfl | h
    · exact lt_of_le_of_ne (not_lt.mp hlt) (Ne.symm hne)
    · exact h3 k' h

theorem sound_of_get? {key : String} {child : CommandTree η} {cs : Children η} (hcs : cs.Sound)
    (h : cs.get? key = some child) : child.keyword = key ∧ child.Sound := by
  fun_induction get? key cs with
  | case1 => cases h
  | case2 c rest => exact Option.some.inj h ▸ ⟨hcs.1, hcs.2.1⟩
  | case3 k c rest hk ih => exact ih hcs.2.2.2 h

theorem mem_trees {c : CommandTree η} {cs : Children η} (hcs : cs.Sound) :
    c ∈ cs.trees ↔ cs.get? c.keyword = some c := by
  fun_induction trees cs with
  | case1 => simp [get?]
  | case2 k d rest ih =>
    obtain ⟨rfl, -, h3, h4⟩ := hcs
    rw [List.mem_cons, ih h4, get?]
    split_ifs with hk
    · rw [← hk, get?_of_lt h3]
      simp [eq_comm]
    · have hne : c ≠ d := fun e => hk (e ▸ rfl)
      simp [hne]

end Children

/-! ## Adding commands -/

namespace CommandTree

theorem sound_iff {t : CommandTree η} : t.Sound ↔ t.children.Sound := by
  cases t
  exact Iff.rfl

theorem sound_leaf (e : Element) (hidden : Bool) : (leaf e hidden : CommandTree η).Sound := trivial

theorem sound_root : (root : CommandTree η).Sound := sound_leaf _ _

theorem sound_child {t c : CommandTree η} {key : String} (ht : t.Sound)
    (h : t.child? key = some c) : c.keyword = key ∧ c.Sound :=
  Children.sound_of_get? (sound_iff.mp ht) h

theorem element_attach (handler : η) (hidden : Bool) (es : List Element) (t : CommandTree η) :
    (attach handler hidden es t).element = t.element := by
  cases t
  cases es <;> rfl

theorem keyword_attach (handler : η) (hidden : Bool) (es : List Element) (t : CommandTree η) :
    (attach handler hidden es t).keyword = t.keyword :=
  congrArg Element.keyword (element_attach handler hidden es t)

theorem keyword_stepInto {e : Element} {hidden : Bool} {o : Option (CommandTree η)}
    (h : ∀ c ∈ o, c.keyword = e.keyword) : (stepInto e hidden o).keyword = e.keyword := by
  cases o with
  | none => rfl
  | some c =>
    obtain ⟨f, handler, old, cs⟩ := c
    exact h (node f handler old cs) rfl

theorem sound_stepInto {e : Element} {hidden : Bool} {o : Option (CommandTree η)}
    (h : ∀ c ∈ o, c.Sound) : (stepInto e hidden o).Sound := by
  cases o with
  | none => exact sound_leaf _ _
  | some c =>
    obtain ⟨f, handler, old, cs⟩ := c
    exact h (node f handler old cs) rfl

/-- **Attaching one path keeps a tree sound.** -/
theorem sound_attach (handler : η) (hidden : Bool) (es : List Element) {t : CommandTree η}
    (ht : t.Sound) : (attach handler hidden es t).Sound := by
  induction es generalizing t with
  | nil =>
    cases t
    exact ht
  | cons e es ih =>
    obtain ⟨f, h, old, cs⟩ := t
    have hc : ∀ c ∈ cs.get? e.keyword, c.keyword = e.keyword ∧ c.Sound := fun c h =>
      Children.sound_of_get? ht h
    refine Children.sound_insert ht ?_ (ih (sound_stepInto fun c h => (hc c h).2))
    rw [keyword_attach]
    exact keyword_stepInto fun c h => (hc c h).1

/-- **Adding a command keeps a tree sound.** -/
theorem sound_build (tokens : List Token) (handler : η) (hidden : Bool) {t : CommandTree η}
    (ht : t.Sound) : (t.build tokens handler hidden).Sound := by
  unfold build
  induction Token.paths tokens generalizing t with
  | nil => exact ht
  | cons es paths ih => exact ih (sound_attach handler hidden es ht)

theorem element_build (tokens : List Token) (handler : η) (hidden : Bool) (t : CommandTree η) :
    (t.build tokens handler hidden).element = t.element := by
  unfold build
  induction Token.paths tokens generalizing t with
  | nil => rfl
  | cons es paths ih =>
    rw [List.foldl_cons, ih, element_attach]

end CommandTree

end Console
