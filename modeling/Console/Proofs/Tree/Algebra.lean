import Console.Proofs.Tree.Equality

/-!
# The algebra of merging

Sound trees with one keyword at the top are united path by path, and a sound tree is nothing but its
labels. So merging has the laws that unions of labels have: it is associative, a tree united with
itself stays as it is, and the order of two trees matters just where the element that stays or the
handler that wins depends on it.

* `Label.Consistent`, `CommandTree.Consistent`: no element and no handler depends on the order;
* `Label.joined_self`, `Label.joined_comm_iff`: the laws at one path;
* **`merge_eq_ok_iff`**: when a merge of sound trees succeeds, and with which tree;
* **`merge_assoc_idem_comm`**: the laws of merging.
-/

namespace Console

universe u

variable {η : Type u}

/-! ## Labels -/

namespace Label

/-- Two labels have one element, and not two different handlers. -/
def Consistent (l m : Label η) : Prop :=
  l.element = m.element ∧ ∀ g h, l.handler = some g → m.handler = some h → g = h

theorem union_self (l : Label η) : l.union l = l := by
  cases l
  simp [union]

theorem joined_self (a : Option (Label η)) : joined a a = a := by
  cases a <;> simp [union_self]

theorem union_comm_iff {l m : Label η} : l.union m = m.union l ↔ l.Consistent m := by
  obtain ⟨e, g, hidden⟩ := l
  obtain ⟨f, h, hidden'⟩ := m
  simp only [union, mk.injEq, Bool.and_comm hidden', and_true, Consistent]
  refine and_congr_right fun _ => ?_
  cases g <;> cases h <;> simp [eq_comm]

theorem joined_comm_iff {a b : Option (Label η)} :
    joined a b = joined b a ↔ ∀ l ∈ a, ∀ m ∈ b, l.Consistent m := by
  cases a with
  | none => simp
  | some l =>
    cases b with
    | none => simp
    | some m => simp [union_comm_iff]

end Label

/-! ## Trees -/

namespace CommandTree

/-- At each path that two trees have in common, their nodes have one element and not two different
handlers. -/
def Consistent (t u : CommandTree η) : Prop :=
  ∀ p n m, t.lookup p = some n → u.lookup p = some m → n.label.Consistent m.label

theorem consistent_iff {t u : CommandTree η} :
    t.Consistent u ↔
      ∀ p, Label.joined (t.labelAt p) (u.labelAt p) = Label.joined (u.labelAt p) (t.labelAt p) := by
  refine forall_congr' fun p => ?_
  rw [Label.joined_comm_iff, labelAt, labelAt]
  cases t.lookup p <;> cases u.lookup p <;> simp

/-- **When a merge of sound trees succeeds, and with which tree.** -/
theorem merge_eq_ok_iff {t u v : CommandTree η} (ht : t.Sound) (hu : u.Sound) :
    t.merge u = .ok v ↔ t.keyword = u.keyword ∧ v.Sound ∧
      ∀ p, v.labelAt p = Label.joined (t.labelAt p) (u.labelAt p) := by
  constructor
  · intro h
    have hk : t.keyword = u.keyword := by
      by_contra hne
      obtain ⟨e, handler, hidden, cs⟩ := u
      have hne : t.keyword ≠ e.keyword := hne
      rw [merge, if_neg hne] at h
      cases h
    obtain ⟨w, hw, hsound, -, hlabels⟩ := exists_merge u t ht hu hk
    obtain rfl : w = v := Except.ok.inj (hw.symm.trans h)
    exact ⟨hk, hsound, hlabels⟩
  · rintro ⟨hk, hv, hlabels⟩
    obtain ⟨w, hw, hsound, -, hlabels'⟩ := exists_merge u t ht hu hk
    have hwv : w = v := ext_of_labelAt w v hsound hv fun p => (hlabels' p).trans (hlabels p).symm
    rw [hw, hwv]

/-- **The laws of merging.** Merging sound trees with one keyword at the top is associative and
idempotent, and two of them are united in either order if and only if they are consistent. -/
theorem merge_assoc_idem_comm {a b c : CommandTree η} (ha : a.Sound) (hb : b.Sound) (hc : c.Sound)
    (hab : a.keyword = b.keyword) (hbc : b.keyword = c.keyword) :
    (∃ ab bc abc, a.merge b = .ok ab ∧ b.merge c = .ok bc ∧
      ab.merge c = .ok abc ∧ a.merge bc = .ok abc) ∧
      a.merge a = .ok a ∧
      ((∃ ab, a.merge b = .ok ab ∧ b.merge a = .ok ab) ↔ a.Consistent b) := by
  obtain ⟨ab, hmab, hsab, heab, hlab⟩ := exists_merge b a ha hb hab
  obtain ⟨bc, hmbc, hsbc, hebc, hlbc⟩ := exists_merge c b hb hc hbc
  have hkab : ab.keyword = c.keyword := (congrArg Element.keyword heab).trans (hab.trans hbc)
  have hkbc : a.keyword = bc.keyword := hab.trans (congrArg Element.keyword hebc).symm
  obtain ⟨abc, hmabc, hsabc, -, hlabc⟩ := exists_merge c ab hsab hc hkab
  refine ⟨⟨ab, bc, abc, hmab, hmbc, hmabc, ?_⟩, ?_, ?_⟩
  · refine (merge_eq_ok_iff ha hsbc).mpr ⟨hkbc, hsabc, fun p => ?_⟩
    rw [hlabc, hlab, hlbc, Label.joined_assoc]
  · exact (merge_eq_ok_iff ha ha).mpr ⟨rfl, ha, fun p => (Label.joined_self _).symm⟩
  · have hother : b.merge a = .ok ab ↔ a.Consistent b := by
      rw [merge_eq_ok_iff hb ha, consistent_iff]
      simp only [hab, hsab, hlab, true_and]
    rw [← hother]
    constructor
    · rintro ⟨v, hv, hv'⟩
      obtain rfl : ab = v := Except.ok.inj (hmab.symm.trans hv)
      exact hv'
    · exact fun h => ⟨ab, hmab, h⟩

/-- A tree with one path of words. -/
def ofWords (words : List String) (handler : ℕ) (hidden : Bool) : CommandTree ℕ :=
  root.attach handler hidden (words.map fun w => .ofArgspec w "" false)

theorem sound_ofWords (words : List String) (handler : ℕ) (hidden : Bool) :
    (ofWords words handler hidden).Sound :=
  sound_attach _ _ _ sound_root

/-- Three trees that share a node, to which the last two bring different handlers. -/
theorem merge_assoc_idem_comm_show :
    let a := ofWords ["show", "ip"] 0 true
    let b := ofWords ["show"] 1 false
    let c := ofWords ["show"] 2 true
    (a.Sound ∧ b.Sound ∧ c.Sound ∧ a.keyword = b.keyword ∧ b.keyword = c.keyword) ∧
      (∃ ab bc abc, a.merge b = .ok ab ∧ b.merge c = .ok bc ∧
        ab.merge c = .ok abc ∧ a.merge bc = .ok abc) ∧
      a.merge a = .ok a ∧ a.Consistent b ∧ ¬ b.Consistent c := by
  intro a b c
  have ha : a.Sound := sound_ofWords ["show", "ip"] 0 true
  have hb : b.Sound := sound_ofWords ["show"] 1 false
  have hc : c.Sound := sound_ofWords ["show"] 2 true
  obtain ⟨hassoc, hidem, hcomm⟩ := merge_assoc_idem_comm ha hb hc rfl rfl
  have hab : a.Consistent b := hcomm.mp ⟨_, rfl, by with_unfolding_all rfl⟩
  refine ⟨⟨ha, hb, hc, rfl, rfl⟩, hassoc, hidem, hab, fun hbc => ?_⟩
  obtain ⟨-, hhandler⟩ := hbc ["show"] _ _ rfl rfl
  exact absurd (hhandler 1 2 rfl rfl) (by decide)

end CommandTree

end Console
