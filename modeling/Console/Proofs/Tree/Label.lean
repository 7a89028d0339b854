import Console.Proofs.Tree.Sound

/-!
# Labels

What stands at a path of a tree: an element, perhaps a handler, and whether it is hidden. Labels of
one path are united: the first element stays, the last handler wins, and the union is hidden only if
all are. Adding commands and merging trees are unions of labels, path by path.

* `Label`, `Label.union`, `Label.joined`, `Label.all`;
* `CommandTree.labelAt`: the label at a path of keys;
* `Label.along`: the label that one path of elements brings to a path of keys;
* **`labelAt_build`**: what a command brings to each path.
-/

namespace Console

universe u

variable {η : Type u}

/-- What stands at a path of a tree. -/
@[ext]
structure Label (η : Type u) where
  element : Element
  handler : Option η
  hidden : Bool

namespace Label

/-- The first element stays, the last handler wins, and both must be hidden. -/
def union (l m : Label η) : Label η := ⟨l.element, m.handler.or l.handler, l.hidden && m.hidden⟩

theorem union_assoc (l m n : Label η) : (l.union m).union n = l.union (m.union n) := by
  simp only [union, Option.or_assoc, Bool.and_assoc]

/-- What stands at a path after two things have been put there, each of which may be nothing. -/
def joined : Option (Label η) → Option (Label η) → Option (Label η) := Option.merge union

@[simp] theorem joined_none_left (a : Option (Label η)) : joined none a = a := by cases a <;> rfl

@[simp] theorem joined_none_right (a : Option (Label η)) : joined a none = a := by cases a <;> rfl

@[simp] theorem joined_some (l m : Label η) : joined (some l) (some m) = some (l.union m) := rfl

theorem isSome_joined (a b : Option (Label η)) :
    (joined a b).isSome = true ↔ a.isSome = true ∨ b.isSome = true := by
  cases a <;> cases b <;> simp

theorem joined_assoc (a b c : Option (Label η)) :
    joined (joined a b) c = joined a (joined b c) := by
  cases a <;> cases b <;> cases c <;> simp [union_assoc]

/-- The union of some labels, in order. -/
def all : List (Label η) → Option (Label η)
  | [] => none
  | l :: ls => joined (some l) (all ls)

theorem all_append (ls ms : List (Label η)) : all (ls ++ ms) = joined (all ls) (all ms) := by
  induction ls with
  | nil => simp [all]
  | cons l ls ih => rw [List.cons_append, all, ih, all, joined_assoc]

theorem all_eq_none {ls : List (Label η)} : all ls = none ↔ ls = [] := by
  cases ls with
  | nil => simp [all]
  | cons l ls => cases h : all ls <;> simp [all, h]

theorem hidden_all {ls : List (Label η)} {l : Label η} (h : all ls = some l) :
    l.hidden = true ↔ ∀ m ∈ ls, m.hidden = true := by
  induction ls generalizing l with
  | nil => cases h
  | cons m ls ih =>
    rw [all] at h
    cases hs : all ls with
    | none =>
      rw [hs, joined_none_right] at h
      cases h
      simp [all_eq_none.mp hs]
    | some n =>
      rw [hs, joined_some] at h
      cases h
      simp [union, ih hs]

theorem hidden_all_of_forall {ls : List (Label η)} {l : Label η} (h : all ls = some l)
    {hidden : Bool} (hs : ∀ m ∈ ls, m.hidden = hidden) : l.hidden = hidden := by
  have hne : ls ≠ [] := fun hnil => Option.some_ne_none l (h.symm.trans (all_eq_none.mpr hnil))
  obtain ⟨m, ms, rfl⟩ := List.exists_cons_of_ne_nil hne
  rw [Bool.eq_iff_iff, hidden_all h]
  exact ⟨fun hall => hs m List.mem_cons_self ▸ hall m List.mem_cons_self,
    fun htrue n hn => (hs n hn).trans htrue⟩

theorem element_all (ls : List (Label η)) : (all ls).map element = ls.head?.map element := by
  cases ls with
  | nil => rfl
  | cons l ls => cases h : all ls <;> simp [all, h, union]

theorem handler_joined (a b : Option (Label η)) :
    (joined a b).bind handler = (b.bind handler).or (a.bind handler) := by
  cases a <;> cases b <;> simp [union]

theorem handler_all (ls : List (Label η)) :
    (all ls).bind handler = ls.reverse.findSome? handler := by
  induction ls with
  | nil => rfl
  | cons l ls ih =>
    rw [all, handler_joined, ih, List.reverse_cons, List.findSome?_append]
    cases h : l.handler <;> simp [h]

end Label

namespace CommandTree

/-- The label of a node. -/
def label (t : CommandTree η) : Label η := ⟨t.element, t.handler, t.hidden⟩

/-- The label at a path of keys. -/
def labelAt (t : CommandTree η) (p : List String) : Option (Label η) := (t.lookup p).map label

@[simp] theorem labelAt_nil (t : CommandTree η) : t.labelAt [] = some t.label := rfl

theorem labelAt_cons (t : CommandTree η) (k : String) (p : List String) :
    t.labelAt (k :: p) = (t.child? k).bind (·.labelAt p) := by
  simp only [labelAt, lookup]
  cases t.child? k <;> rfl

theorem labelAt_leaf (e : Element) (hidden : Bool) {p : List String} (hp : p ≠ []) :
    (leaf e hidden : CommandTree η).labelAt p = none := by
  cases p with
  | nil => exact absurd rfl hp
  | cons k p => rfl

end CommandTree

/-! ## Adding commands -/

/-- The label that one path of elements brings to a path of keys: the path lays a node at each of
its prefixes, and its handler at its end. -/
def Label.along (handler : η) (hidden : Bool) : List Element → List String → Option (Label η)
  | e :: es, [k] =>
    if k = e.keyword then some ⟨e, if es.isEmpty then some handler else none, hidden⟩ else none
  | e :: es, k :: ks => if k = e.keyword then along handler hidden es ks else none
  | _, _ => none

theorem Label.along_eq_some {handler : η} {hidden : Bool} {es : List Element} {p : List String}
    {l : Label η} :
    along handler hidden es p = some l ↔ ∃ fs e gs, es = fs ++ e :: gs ∧
      p = (fs ++ [e]).map Element.keyword ∧
      l = ⟨e, if gs.isEmpty then some handler else none, hidden⟩ := by
  fun_induction along handler hidden es p with
  | case1 e es =>
    constructor
    · intro h
      exact ⟨[], e, es, rfl, rfl, (Option.some.inj h).symm⟩
    · rintro ⟨fs, f, gs, h1, h2, rfl⟩
      cases fs with
      | nil =>
        obtain ⟨rfl, rfl⟩ := List.cons.inj h1
        rfl
      | cons f' fs => simp at h2
  | case2 e es k hk =>
    constructor
    · intro h
      cases h
    · rintro ⟨fs, f, gs, h1, h2, -⟩
      cases fs with
      | nil =>
        obtain ⟨rfl, rfl⟩ := List.cons.inj h1
        exact absurd (List.cons.inj h2).1 hk
      | cons f' fs => simp at h2
  | case3 e es ks hks ih =>
    rw [ih]
    constructor
    · rintro ⟨fs, f, gs, rfl, rfl, rfl⟩
      exact ⟨e :: fs, f, gs, rfl, rfl, rfl⟩
    · rintro ⟨fs, f, gs, h1, h2, rfl⟩
      cases fs with
      | nil => exact absurd (List.cons.inj h2).2 hks
      | cons f' fs =>
        obtain ⟨rfl, rfl⟩ := List.cons.inj h1
        exact ⟨fs, f, gs, rfl, (List.cons.inj h2).2, rfl⟩
  | case4 e es k ks hks hk =>
    constructor
    · intro h
      cases h
    · rintro ⟨fs, f, gs, h1, h2, -⟩
      cases fs with
      | nil => exact absurd (List.cons.inj h2).2 hks
      | cons f' fs =>
        obtain ⟨rfl, rfl⟩ := List.cons.inj h1
        exact absurd (List.cons.inj h2).1 hk
  | case5 es p h1 h2 =>
    constructor
    · intro h
      cases h
    · rintro ⟨fs, f, gs, rfl, rfl, -⟩
      cases fs with
      | nil => exact absurd rfl (h1 f gs f.keyword rfl)
      | cons f' fs => exact absurd rfl (h2 f' (fs ++ f :: gs) f'.keyword _ rfl)

namespace CommandTree

theorem label_attach_stepInto (handler : η) (hidden : Bool) (e : Element) (es : List Element)
    (o : Option (CommandTree η)) :
    some (attach handler hidden es (stepInto e hidden o)).label =
      Label.joined (o.map label) (some ⟨e, if es.isEmpty then some handler else none, hidden⟩) := by
  cases o with
  | none => cases es <;> rfl
  | some c =>
    obtain ⟨f, h, old, cs⟩ := c
    cases es <;> rfl

theorem labelAt_stepInto (e : Element) (hidden : Bool) (o : Option (CommandTree η))
    {p : List String} (hp : p ≠ []) :
    (stepInto e hidden o).labelAt p = o.bind (·.labelAt p) := by
  cases o with
  | none => exact labelAt_leaf e hidden hp
  | some c =>
    obtain ⟨f, handler, old, cs⟩ := c
    cases p with
    | nil => exact absurd rfl hp
    | cons k p => rfl

theorem child?_attach_self (handler : η) (hidden : Bool) (e : Element) (es : List Element)
    (t : CommandTree η) :
    (attach handler hidden (e :: es) t).child? e.keyword =
      some (attach handler hidden es (stepInto e hidden (t.child? e.keyword))) := by
  cases t
  exact Children.get?_insert_self _ _ _

theorem child?_attach_of_ne (handler : η) (hidden : Bool) {e : Element} (es : List Element)
    (t : CommandTree η) {k : String} (hk : k ≠ e.keyword) :
    (attach handler hidden (e :: es) t).child? k = t.child? k := by
  cases t
  exact Children.get?_insert_of_ne hk _ _

/-- **Attaching one path adds its own labels and no others.** -/
theorem labelAt_attach (handler : η) (hidden : Bool) (es : List Element) (t : CommandTree η)
    {p : List String} (hp : p ≠ []) :
    (attach handler hidden es t).labelAt p =
      Label.joined (t.labelAt p) (Label.along handler hidden es p) := by
  induction es generalizing t p with
  | nil =>
    obtain ⟨f, h, old, cs⟩ := t
    cases p with
    | nil => exact absurd rfl hp
    | cons k p => simp [Label.along, attach, labelAt_cons, child?, children]
  | cons e es ih =>
    cases p with
    | nil => exact absurd rfl hp
    | cons k p =>
      rw [labelAt_cons, labelAt_cons]
      by_cases hk : k = e.keyword
      · subst hk
        rw [child?_attach_self, Option.bind_some]
        cases p with
        | nil =>
          rw [labelAt_nil, label_attach_stepInto]
          simp only [Label.along, if_true]
          cases t.child? e.keyword <;> rfl
        | cons k' p =>
          rw [ih _ (List.cons_ne_nil _ _), labelAt_stepInto _ _ _ (List.cons_ne_nil _ _)]
          simp [Label.along]
      · rw [child?_attach_of_ne _ _ _ _ hk]
        have : Label.along handler hidden (e :: es) (k :: p) = none := by
          cases p <;> simp [Label.along, hk]
        rw [this, Label.joined_none_right]

/-- **What a command brings to each path.** -/
theorem labelAt_build (tokens : List Token) (handler : η) (hidden : Bool) (t : CommandTree η)
    {p : List String} (hp : p ≠ []) :
    (t.build tokens handler hidden).labelAt p =
      Label.joined (t.labelAt p)
        (Label.all ((Token.paths tokens).filterMap (Label.along handler hidden · p))) := by
  unfold build
  induction Token.paths tokens generalizing t with
  | nil => simp [Label.all]
  | cons es paths ih =>
    rw [List.foldl_cons, ih, labelAt_attach _ _ _ _ hp, Label.joined_assoc, List.filterMap_cons]
    cases Label.along handler hidden es p <;> simp [Label.all]

end CommandTree

end Console
