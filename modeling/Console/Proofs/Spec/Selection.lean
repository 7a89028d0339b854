import Console.Spec.Selection
import Mathlib.Algebra.BigOperators.Intervals
import Mathlib.Data.List.FinRange
import Mathlib.Data.List.Perm.Subperm
import Mathlib.Data.Nat.Factorial.Basic

/-!
# What the ordered selections are

* `mem_picks`: a pick takes one member out of its place;
* `ofSize_map`: the selections of a mapped list are the mapped selections;
* `mem_ofSize_of_nodup`: of distinct members, the lists without repetition;
* **`mem_selections`**: the selections are read off the non-empty sequences of distinct places;
* **`nodup_selections`**: of distinct members, no selection is listed twice;
* `length_ofSize`, **`length_selections`**: how many there are.
-/

namespace Console.Selection

open scoped Nat

variable {α β : Type}

theorem mem_picks {as : List α} {p : α × List α} :
    p ∈ picks as ↔ ∃ l r, as = l ++ p.1 :: r ∧ p.2 = l ++ r := by
  induction as generalizing p with
  | nil => simp [picks]
  | cons a as ih =>
    simp only [picks, List.mem_cons, List.mem_map]
    constructor
    · rintro (rfl | ⟨q, hq, rfl⟩)
      · exact ⟨[], as, rfl, rfl⟩
      · obtain ⟨l, r, h1, h2⟩ := ih.mp hq
        exact ⟨a :: l, r, by rw [h1]; rfl, by rw [h2]; rfl⟩
    · rintro ⟨l, r, h1, h2⟩
      cases l with
      | nil =>
        obtain ⟨rfl, rfl⟩ := List.cons.inj h1
        exact Or.inl (Prod.ext rfl h2)
      | cons b l =>
        obtain ⟨rfl, rfl⟩ := List.cons.inj h1
        exact Or.inr ⟨(p.1, l ++ r), ih.mpr ⟨l, r, rfl, rfl⟩, Prod.ext rfl h2.symm⟩

theorem picks_map (f : α → β) (as : List α) :
    picks (as.map f) = (picks as).map fun p => (f p.1, p.2.map f) := by
  induction as with
  | nil => rfl
  | cons a as ih => simp [picks, ih]

theorem ofSize_map (f : α → β) (n : ℕ) (as : List α) :
    ofSize n (as.map f) = (ofSize n as).map (List.map f) := by
  induction n generalizing as with
  | zero => rfl
  | succ n ih =>
    simp only [ofSize, picks_map, List.flatMap_map, List.map_flatMap, ih, List.map_map]
    rfl

theorem selections_map (f : α → β) (as : List α) :
    selections (as.map f) = (selections as).map (List.map f) := by
  simp only [selections, List.length_map, ofSize_map, List.map_flatMap]

/-- **The selections of distinct members are the lists of them without repetition.** -/
theorem mem_ofSize_of_nodup {n : ℕ} {as s : List α} (h : as.Nodup) :
    s ∈ ofSize n as ↔ s.length = n ∧ s.Nodup ∧ ∀ a ∈ s, a ∈ as := by
  induction n generalizing as s with
  | zero =>
    rw [ofSize, List.mem_singleton, List.length_eq_zero_iff]
    exact ⟨by rintro rfl; simp, And.left⟩
  | succ n ih =>
    simp only [ofSize, List.mem_flatMap, List.mem_map]
    constructor
    · rintro ⟨p, hp, t, ht, rfl⟩
      obtain ⟨l, r, rfl, h2⟩ := mem_picks.mp hp
      obtain ⟨hp1, hlr⟩ := List.nodup_middle.mp h |> List.nodup_cons.mp
      obtain ⟨hn, hd, hs⟩ := (ih (h2 ▸ hlr)).mp ht
      refine ⟨by simp [hn], List.nodup_cons.mpr ⟨fun hm => hp1 (h2 ▸ hs _ hm), hd⟩, fun a ha => ?_⟩
      rcases List.mem_cons.mp ha with rfl | ha
      · simp
      · have := hs a ha
        rw [h2] at this
        exact List.perm_middle.symm.subset (List.mem_cons_of_mem _ this)
    · rintro ⟨hn, hd, hs⟩
      cases s with
      | nil => simp at hn
      | cons b t =>
        obtain ⟨hb, hd⟩ := List.nodup_cons.mp hd
        obtain ⟨l, r, rfl⟩ := List.append_of_mem (hs b List.mem_cons_self)
        have hlr := (List.nodup_cons.mp (List.nodup_middle.mp h)).2
        refine ⟨(b, l ++ r), mem_picks.mpr ⟨l, r, rfl, rfl⟩, t, (ih hlr).mpr ⟨?_, hd, ?_⟩, rfl⟩
        · simpa using hn
        · intro a ha
          have hab : a ≠ b := fun e => hb (e ▸ ha)
          have := List.perm_middle.subset (hs a (List.mem_cons_of_mem _ ha))
          exact (List.mem_cons.mp this).resolve_left hab

theorem mem_selections_of_nodup {as s : List α} (h : as.Nodup) :
    s ∈ selections as ↔ s ≠ [] ∧ s.Nodup ∧ ∀ a ∈ s, a ∈ as := by
  simp only [selections, List.mem_flatMap, List.mem_range, mem_ofSize_of_nodup h]
  constructor
  · rintro ⟨n, -, hn, hd, hs⟩
    exact ⟨by rintro rfl; simp at hn, hd, hs⟩
  · rintro ⟨hne, hd, hs⟩
    have hle := (List.Nodup.subperm hd hs).length_le
    have hpos := List.length_pos_iff.mpr hne
    exact ⟨s.length - 1, by omega, by omega, hd, hs⟩

theorem selections_eq_map_places (as : List α) :
    selections as = (selections (List.finRange as.length)).map (List.map as.get) := by
  rw [← selections_map, List.map_get_finRange]

/-- **The selections, by places.** Members that are equal but stand at different places count as
different. -/
theorem mem_selections {as s : List α} :
    s ∈ selections as ↔
      ∃ places : List (Fin as.length), places ≠ [] ∧ places.Nodup ∧ s = places.map as.get := by
  rw [selections_eq_map_places, List.mem_map]
  constructor
  · rintro ⟨places, hp, rfl⟩
    obtain ⟨hne, hd, -⟩ := (mem_selections_of_nodup (List.nodup_finRange _)).mp hp
    exact ⟨places, hne, hd, rfl⟩
  · rintro ⟨places, hne, hd, rfl⟩
    exact ⟨places, (mem_selections_of_nodup (List.nodup_finRange _)).mpr
      ⟨hne, hd, fun i _ => List.mem_finRange i⟩, rfl⟩

/-! ## No selection is listed twice -/

theorem map_fst_picks (as : List α) : (picks as).map Prod.fst = as := by
  induction as with
  | nil => rfl
  | cons a as ih =>
    rw [picks, List.map_cons, List.map_map]
    exact congrArg (a :: ·) ih

theorem nodup_of_mem_picks {as : List α} (h : as.Nodup) {p : α × List α} (hp : p ∈ picks as) :
    p.2.Nodup := by
  obtain ⟨l, r, rfl, hrest⟩ := mem_picks.mp hp
  rw [hrest]
  exact (List.nodup_cons.mp (List.nodup_middle.mp h)).2

theorem nodup_ofSize {as : List α} (h : as.Nodup) (n : ℕ) : (ofSize n as).Nodup := by
  induction n generalizing as with
  | zero => exact List.nodup_singleton []
  | succ n ih =>
    have hfirst : (picks as).Pairwise fun p q => p.1 ≠ q.1 := by
      rw [← List.pairwise_map (R := (· ≠ ·)), map_fst_picks]
      exact h
    rw [ofSize, List.nodup_flatMap]
    refine ⟨fun p hp => ?_, hfirst.imp fun hne s hs ht => hne ?_⟩
    · exact (ih (nodup_of_mem_picks h hp)).map List.cons_injective
    · obtain ⟨u, -, rfl⟩ := List.mem_map.mp hs
      obtain ⟨v, -, heq⟩ := List.mem_map.mp ht
      exact (List.cons.inj heq).1.symm

/-- **Of distinct members, no selection is listed twice.** -/
theorem nodup_selections {as : List α} (h : as.Nodup) : (selections as).Nodup := by
  rw [selections, List.nodup_flatMap]
  refine ⟨fun n _ => nodup_ofSize h (n + 1), List.nodup_range.imp fun hne s hs ht => hne ?_⟩
  -- The sizes tell the selections apart.
  have hm := ((mem_ofSize_of_nodup h).mp hs).1
  have hn := ((mem_ofSize_of_nodup h).mp ht).1
  omega

/-! ## How many there are -/

theorem length_picks (as : List α) : (picks as).length = as.length := by
  rw [← List.length_map Prod.fst, map_fst_picks]

theorem length_of_mem_picks {as : List α} {p : α × List α} (hp : p ∈ picks as) :
    p.2.length = as.length - 1 := by
  obtain ⟨l, r, rfl, hrest⟩ := mem_picks.mp hp
  rw [hrest, List.length_append, List.length_append, List.length_cons]
  omega

/-- **How many selections of one size there are**: the first is any of the members, the next any of
the others, and so on. -/
theorem length_ofSize (n : ℕ) (as : List α) : (ofSize n as).length = as.length.descFactorial n := by
  induction n generalizing as with
  | zero => rfl
  | succ n ih =>
    have hrest : ∀ p ∈ picks as,
        ((ofSize n p.2).map (p.1 :: ·)).length = (as.length - 1).descFactorial n := by
      intro p hp
      rw [List.length_map, ih, length_of_mem_picks hp]
    rw [ofSize, List.length_flatMap, List.map_congr_left hrest, List.map_const',
      List.sum_replicate_nat, length_picks]
    cases as.length with
    | zero => rw [Nat.zero_descFactorial_succ, zero_mul]
    | succ m => rw [Nat.succ_descFactorial_succ, Nat.add_sub_cancel]

/-- **How many selections there are.** -/
theorem length_selections (as : List α) :
    (selections as).length = ∑ k ∈ Finset.Icc 1 as.length, as.length ! / (as.length - k)! := by
  have hsize : ∀ k ∈ Finset.range as.length, (ofSize (k + 1) as).length =
      as.length ! / (as.length - (k + 1))! := by
    intro k hk
    rw [length_ofSize, Nat.descFactorial_eq_div (Finset.mem_range.mp hk)]
  calc (selections as).length
      = ∑ k ∈ Finset.range as.length, (ofSize (k + 1) as).length := by
        rw [selections, List.length_flatMap]
        rfl
    _ = ∑ k ∈ Finset.range as.length, as.length ! / (as.length - (k + 1))! :=
        Finset.sum_congr rfl hsize
    _ = ∑ k ∈ Finset.Icc 1 as.length, as.length ! / (as.length - k)! := by
        rw [Finset.range_eq_Ico, Finset.sum_Ico_add' (fun k => as.length ! / (as.length - k)!)]
        rfl

end Console.Selection
