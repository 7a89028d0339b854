import Console.Proofs.Tree.Merge

/-!
# Trees with the same labels

A sound tree holds nothing but its labels: keys ascend, so the least key of the children can be read
off them, and after it the next one.

* `Children.labelAt_isSome`: the keys of some children are the paths of one key that have a label;
* `Children.key_eq`: of sound children with the same labels, the first keys agree;
* **`CommandTree.ext_of_labelAt`**: sound trees with the same label at every path are equal.
-/

namespace Console

universe u

variable {η : Type u}

namespace Children

theorem labelAt_isSome {cs : Children η} {k : String} :
    (cs.labelAt k []).isSome = true ↔ k ∈ cs.keys := by
  rw [labelAt]
  cases h : cs.get? k with
  | none => simpa using get?_eq_none.mp h
  | some c =>
    have hk : k ∈ cs.keys := by
      by_contra hk
      rw [get?_eq_none.mpr hk] at h
      cases h
    simpa using hk

theorem key_eq {k l : String} {c d : CommandTree η} {cs ds : Children η}
    (hcs : (cons k c cs).Sound) (hds : (cons l d ds).Sound)
    (h : ∀ j p, (cons k c cs).labelAt j p = (cons l d ds).labelAt j p) : k = l := by
  have hkeys : ∀ j, j ∈ (cons k c cs).keys ↔ j ∈ (cons l d ds).keys := by
    intro j
    rw [← labelAt_isSome, ← labelAt_isSome, h]
  have hl : k = l ∨ k ∈ ds.keys := by
    have := (hkeys k).mp (by simp [keys])
    simpa [keys] using this
  have hk : l = k ∨ l ∈ cs.keys := by
    have := (hkeys l).mpr (by simp [keys])
    simpa [keys] using this
  rcases hl with rfl | hl
  · rfl
  rcases hk with rfl | hk
  · rfl
  have h₁ : l < k := hds.2.2.1 k hl
  have h₂ : k < l := hcs.2.2.1 l hk
  exact absurd h₁ (lt_asymm h₂)

theorem labelAt_rest {k : String} {c d : CommandTree η} {cs ds : Children η}
    (hcs : (cons k c cs).Sound) (hds : (cons k d ds).Sound)
    (h : ∀ j p, (cons k c cs).labelAt j p = (cons k d ds).labelAt j p) (j : String)
    (p : List String) : cs.labelAt j p = ds.labelAt j p := by
  by_cases hj : j = k
  · subst hj
    have h₁ : cs.get? j = none := get?_of_lt hcs.2.2.1
    have h₂ : ds.get? j = none := get?_of_lt hds.2.2.1
    simp [labelAt, h₁, h₂]
  · have := h j p
    rwa [labelAt_cons_of_ne hj, labelAt_cons_of_ne hj] at this

end Children

mutual

/-- **Sound trees with the same label at every path are equal.** -/
theorem CommandTree.ext_of_labelAt : ∀ (t u : CommandTree η), t.Sound → u.Sound →
    (∀ p, t.labelAt p = u.labelAt p) → t = u
  | .node e handler hidden cs, .node e' handler' hidden' ds, ht, hu, h => by
    have htop : (⟨e, handler, hidden⟩ : Label η) = ⟨e', handler', hidden'⟩ := Option.some.inj (h [])
    obtain ⟨rfl, rfl, rfl⟩ := Label.mk.inj htop
    have hchildren : cs = ds := Children.ext_of_labelAt cs ds ht hu fun k p => by
      have := h (k :: p)
      rwa [CommandTree.labelAt_cons, CommandTree.labelAt_cons] at this
    rw [hchildren]

theorem Children.ext_of_labelAt : ∀ (cs ds : Children η), cs.Sound → ds.Sound →
    (∀ k p, cs.labelAt k p = ds.labelAt k p) → cs = ds
  | .nil, .nil, _, _, _ => rfl
  | .nil, .cons l d ds, _, _, h => by
    have := h l []
    simp [Children.labelAt, Children.get?] at this
  | .cons k c cs, .nil, _, _, h => by
    have := h k []
    simp [Children.labelAt, Children.get?] at this
  | .cons k c cs, .cons l d ds, hcs, hds, h => by
    obtain rfl := Children.key_eq hcs hds h
    have hfirst : c = d := CommandTree.ext_of_labelAt c d hcs.2.1 hds.2.1 fun p => by
      have := h k p
      rwa [Children.labelAt_cons_self, Children.labelAt_cons_self] at this
    have hrest : cs = ds :=
      Children.ext_of_labelAt cs ds hcs.2.2.2 hds.2.2.2 (Children.labelAt_rest hcs hds h)
    rw [hfirst, hrest]

end

end Console
