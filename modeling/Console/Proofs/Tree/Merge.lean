import Console.Proofs.Tree.Label

/-!
# Merging unites labels

* `Children.labelAt`: the label at a path that begins at some children;
* **`CommandTree.exists_merge`**: sound trees with one keyword can be merged; the result is sound,
  keeps the element at its top, and unites the labels of both path by path;
* **`result_mergeInto`**: how a merge in place ends. Sound trees cannot fail further down: the
  keywords at the top are compared before anything is changed, and below them they agree.
-/

namespace Console

universe u

variable {η : Type u}

/-- The label at the path `k :: p` that begins at some children. -/
def Children.labelAt (cs : Children η) (k : String) (p : List String) : Option (Label η) :=
  (cs.get? k).bind (·.labelAt p)

namespace Children

theorem labelAt_insert_self (key : String) (child : CommandTree η) (cs : Children η)
    (p : List String) : (cs.insert key child).labelAt key p = child.labelAt p := by
  rw [labelAt, get?_insert_self, Option.bind_some]

theorem labelAt_insert_of_ne {key k : String} (h : k ≠ key) (child : CommandTree η)
    (cs : Children η) (p : List String) : (cs.insert key child).labelAt k p = cs.labelAt k p := by
  rw [labelAt, get?_insert_of_ne h, labelAt]

theorem labelAt_cons_self (key : String) (child : CommandTree η) (rest : Children η)
    (p : List String) : (cons key child rest).labelAt key p = child.labelAt p := by
  simp [labelAt, get?]

theorem labelAt_cons_of_ne {key k : String} (h : k ≠ key) (child : CommandTree η)
    (rest : Children η) (p : List String) :
    (cons key child rest).labelAt k p = rest.labelAt k p := by
  simp [labelAt, get?, Ne.symm h]

theorem merge_cons_of_none {target : Children η} {key : String} (h : target.get? key = none)
    (child : CommandTree η) (rest : Children η) :
    target.merge (cons key child rest) = (target.insert key child).merge rest := by
  rw [Children.merge, h]
  rfl

theorem merge_cons_of_some {target : Children η} {key : String} {old child united : CommandTree η}
    (h : target.get? key = some old) (hm : old.merge child = .ok united) (rest : Children η) :
    target.merge (cons key child rest) = (target.insert key united).merge rest := by
  rw [Children.merge, h]
  simp only [hm]
  rfl

theorem labelAt_united {target rest : Children η} {key : String} {child united : CommandTree η}
    (hlt : ∀ k ∈ rest.keys, key < k)
    (hu : ∀ p, united.labelAt p = Label.joined (target.labelAt key p) (child.labelAt p))
    (k : String) (p : List String) :
    Label.joined ((target.insert key united).labelAt k p) (rest.labelAt k p) =
      Label.joined (target.labelAt k p) ((cons key child rest).labelAt k p) := by
  by_cases hk : k = key
  · subst hk
    have hnone : rest.labelAt k p = none := by rw [labelAt, get?_of_lt hlt, Option.bind_none]
    rw [hnone, labelAt_insert_self, labelAt_cons_self, hu, Label.joined_none_right]
  · rw [labelAt_insert_of_ne hk, labelAt_cons_of_ne hk]

end Children

mutual

/-- **Sound trees with one keyword can be merged, which unites their labels.** -/
theorem CommandTree.exists_merge : ∀ (source target : CommandTree η), target.Sound → source.Sound →
    target.keyword = source.keyword → ∃ t, target.merge source = .ok t ∧ t.Sound ∧
      t.element = target.element ∧
      ∀ p, t.labelAt p = Label.joined (target.labelAt p) (source.labelAt p)
  | .node e h hidden cs, target, ht, hs, hk => by
    obtain ⟨ds, h1, h2, h3⟩ :=
      Children.exists_merge cs target.children (CommandTree.sound_iff.mp ht) hs
    refine ⟨.node target.element (h.or target.handler) (target.hidden && hidden) ds, ?_, h2, rfl,
      fun p => ?_⟩
    · have hk : target.keyword = e.keyword := hk
      rw [CommandTree.merge, if_pos hk, h1]
      rfl
    · cases p with
      | nil => rfl
      | cons k p =>
        rw [CommandTree.labelAt_cons, CommandTree.labelAt_cons, CommandTree.labelAt_cons]
        exact h3 k p

theorem Children.exists_merge : ∀ (source target : Children η), target.Sound → source.Sound →
    ∃ ds, target.merge source = .ok ds ∧ ds.Sound ∧
      ∀ k p, ds.labelAt k p = Label.joined (target.labelAt k p) (source.labelAt k p)
  | .nil, target, ht, _ => ⟨target, rfl, ht, fun k p => (Label.joined_none_right _).symm⟩
  | .cons key child rest, target, ht, ⟨hkey, hchild, hlt, hrest⟩ => by
    cases hget : target.get? key with
    | none =>
      obtain ⟨ds, h1, h2, h3⟩ := Children.exists_merge rest (target.insert key child)
        (Children.sound_insert ht hkey hchild) hrest
      refine ⟨ds, (Children.merge_cons_of_none hget child rest).trans h1, h2, fun k p => ?_⟩
      rw [h3, Children.labelAt_united hlt]
      intro p
      rw [Children.labelAt, hget, Option.bind_none, Label.joined_none_left]
    | some old =>
      obtain ⟨hold, hsound⟩ := Children.sound_of_get? ht hget
      obtain ⟨united, hm, hs, he, hu⟩ :=
        CommandTree.exists_merge child old hsound hchild (hold.trans hkey.symm)
      obtain ⟨ds, h1, h2, h3⟩ := Children.exists_merge rest (target.insert key united)
        (Children.sound_insert ht ((congrArg Element.keyword he).trans hold) hs) hrest
      refine ⟨ds, (Children.merge_cons_of_some hget hm rest).trans h1, h2, fun k p => ?_⟩
      rw [h3, Children.labelAt_united hlt]
      intro p
      rw [hu, Children.labelAt, hget, Option.bind_some]

end

namespace CommandTree

/-- **How a merge of sound trees ends.** Only the keywords at the top matter. -/
theorem result_mergeInto {target source : CommandTree η} (ht : target.Sound) (hs : source.Sound) :
    (target.mergeInto source).result =
      if target.keyword = source.keyword then .ok ()
      else .error (.rootMismatch target.keyword source.keyword) := by
  by_cases h : target.keyword = source.keyword
  · obtain ⟨t, hm, -⟩ := exists_merge source target ht hs h
    rw [if_pos h]
    exact (mergeInto_of_merge hm).1
  · rw [if_neg h, mergeInto_of_ne h]

/-- In a tree that is not sound a merge may fail after it has changed the top: here the child of the
source is stored under a keyword that is not its own. -/
example :
    let target : CommandTree Nat := .node Element.root none false
      (.cons "a" (leaf (.ofArgspec "a" "" false) false) .nil)
    let source : CommandTree Nat := .node Element.root (some 1) false
      (.cons "a" (leaf (.ofArgspec "b" "" false) false) .nil)
    (target.mergeInto source).result = .error (.rootMismatch "a" "b") ∧
      (target.mergeInto source).target.handler = some 1 := by
  decide +kernel

end CommandTree

end Console
