/-!
# Ordered selections

The ways to take some members of a list, one after another, each at most once. Members are told
apart by their places, so a list with equal members has equal selections.

* `picks`: one member and what is left, by its place;
* `ofSize`: the selections of a given size, in the order of their places;
* `selections`: all that are not empty, the smaller ones first;
* `total_le_of_mem_selections`: a selection weighs no more than the list.
-/

namespace Console.Selection

variable {α : Type}

/-- Each member together with the other members in their order. -/
def picks : List α → List (α × List α)
  | [] => []
  | a :: as => (a, as) :: (picks as).map fun p => (p.1, a :: p.2)

/-- The selections of a given size. -/
def ofSize : Nat → List α → List (List α)
  | 0, _ => [[]]
  | n + 1, as => (picks as).flatMap fun p => (ofSize n p.2).map (p.1 :: ·)

/-- The selections that are not empty. -/
def selections (as : List α) : List (List α) :=
  (List.range as.length).flatMap fun n => ofSize (n + 1) as

/-! ## Weight -/

variable (w : α → Nat)

/-- The weight of all members together. -/
def total : List α → Nat
  | [] => 0
  | a :: as => w a + total as

theorem total_of_mem_picks {as : List α} {p : α × List α} (h : p ∈ picks as) :
    w p.1 + total w p.2 = total w as := by
  induction as generalizing p with
  | nil => simp [picks] at h
  | cons a as ih =>
    simp only [picks, List.mem_cons, List.mem_map] at h
    rcases h with rfl | ⟨q, hq, rfl⟩
    · rfl
    · have := ih hq
      simp only [total]
      omega

theorem total_le_of_mem_ofSize {n : Nat} {as s : List α} (h : s ∈ ofSize n as) :
    total w s ≤ total w as := by
  induction n generalizing as s with
  | zero => simp_all [ofSize, total]
  | succ n ih =>
    simp only [ofSize, List.mem_flatMap, List.mem_map] at h
    obtain ⟨p, hp, t, ht, rfl⟩ := h
    have := ih ht
    have := total_of_mem_picks w hp
    simp only [total]
    omega

theorem total_le_of_mem_selections {as s : List α} (h : s ∈ selections as) :
    total w s ≤ total w as := by
  simp only [selections, List.mem_flatMap] at h
  obtain ⟨n, -, hs⟩ := h
  exact total_le_of_mem_ofSize w hs

end Console.Selection
