import Console.Spec.Selection
import Console.Spec.Token

/-!
# The paths of a specification

A specification denotes sequences of elements. An alternation stands for each of its branches, a
permutation for each non-empty selection of its branches, joined in the order of the selection.

* `Token.arrangements`: what a group may stand for;
* `Token.paths`: the sequences that tokens denote, the choice at the leftmost group varying
  slowest.
-/

namespace Console.Token

/-- What a group may stand for. -/
def arrangements : GroupKind → List (List Token) → List (List Token)
  | .alternation, branches => branches
  | .permutation, branches => (Selection.selections branches).map List.flatten

/-! ## Weight -/

mutual

/-- The number of elements and groups in a token. -/
def weight : Token → Nat
  | element _ => 1
  | group _ branches => 1 + branchesWeight branches

/-- The number of elements and groups in a sequence of tokens. -/
def seqWeight : List Token → Nat
  | [] => 0
  | t :: ts => t.weight + seqWeight ts

/-- The number of elements and groups in some branches. -/
def branchesWeight : List (List Token) → Nat
  | [] => 0
  | b :: bs => seqWeight b + branchesWeight bs

end

theorem seqWeight_append (ts us : List Token) :
    seqWeight (ts ++ us) = seqWeight ts + seqWeight us := by
  induction ts with
  | nil => simp [seqWeight]
  | cons t ts ih => simp [seqWeight, ih, Nat.add_assoc]

theorem branchesWeight_eq_total (bs : List (List Token)) :
    branchesWeight bs = Selection.total seqWeight bs := by
  induction bs with
  | nil => rfl
  | cons b bs ih => simp [branchesWeight, Selection.total, ih]

theorem seqWeight_flatten (bs : List (List Token)) :
    seqWeight bs.flatten = Selection.total seqWeight bs := by
  induction bs with
  | nil => rfl
  | cons b bs ih => simp [seqWeight_append, Selection.total, ih]

theorem seqWeight_le_of_mem {b : List Token} {bs : List (List Token)} (h : b ∈ bs) :
    seqWeight b ≤ branchesWeight bs := by
  induction bs with
  | nil => simp at h
  | cons c cs ih =>
    simp only [branchesWeight]
    rcases List.mem_cons.1 h with rfl | h
    · omega
    · have := ih h
      omega

theorem seqWeight_le_of_mem_arrangements {kind : GroupKind} {branches : List (List Token)}
    {a : List Token} (h : a ∈ arrangements kind branches) :
    seqWeight a ≤ branchesWeight branches := by
  cases kind with
  | alternation => exact seqWeight_le_of_mem h
  | permutation =>
    obtain ⟨s, hs, rfl⟩ := List.mem_map.1 h
    rw [seqWeight_flatten, branchesWeight_eq_total]
    exact Selection.total_le_of_mem_selections seqWeight hs

/-! ## Paths -/

/-- The sequences of elements that tokens denote. -/
def paths : List Token → List (List Element)
  | [] => [[]]
  | element e :: ts => (paths ts).map (e :: ·)
  | group kind branches :: ts =>
    (arrangements kind branches).attach.flatMap fun a => paths (a.1 ++ ts)
termination_by ts => seqWeight ts
decreasing_by
  · simp [seqWeight, weight]
  · have := seqWeight_le_of_mem_arrangements a.2
    simp only [seqWeight_append, seqWeight, weight]
    omega

end Console.Token
