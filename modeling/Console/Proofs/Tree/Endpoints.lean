import Console.Proofs.Spec.Choices
import Console.Proofs.Tree.Build
import Console.Proofs.Tree.Survey

/-!
# How many endpoints a permutation has

The tree of a specification has an endpoint for each sequence of keywords that is a path. Different
choices of branches may lead along the same keywords, and then they share their endpoint. The orders
of a permutation never do if its branches are told apart by their first keywords: the keywords of
joined branches can then be read back branch by branch.

* **`CommandTree.endpoints_build_root`**: the endpoints are as many as the paths, as keywords;
* `Token.HeadsApart`, **`HeadsApart.eq_of_keywords`**: branches told apart by their first keywords;
* `Token.paths_permutation`: the paths through a permutation of runs of elements;
* **`Token.arrangements_orders`**: what a permutation stands for, and the endpoints that it has.
-/

namespace Console

universe u

variable {η : Type u}

namespace CommandTree

open Token

theorem handler_lookup_root (p : List String) :
    ((root : CommandTree η).lookup p).bind handler = none := by
  cases p <;> rfl

theorem isSome_handler_build_root (tokens : List Token) (h : η) (hidden : Bool) (p : List String) :
    (((root.build tokens h hidden).lookup p).bind handler).isSome = true ↔ Spells tokens p := by
  have hleaves : Leaves tokens h hidden p (root.lookup p)
      ((root.build tokens h hidden).lookup p) := by
    by_cases hp : p = []
    · subst hp
      exact leaves_nil tokens h hidden root
    · exact leaves_of_ne_nil tokens h hidden root hp
  by_cases hs : Spells tokens p
  · rw [hleaves.handler_spelled hs]
    exact iff_of_true rfl hs
  · rw [hleaves.handler_other hs, handler_lookup_root]
    exact iff_of_false Bool.false_ne_true hs

/-- **The endpoints are as many as the paths,** if those with the same keywords count once. -/
theorem endpoints_build_root (tokens : List Token) (h : η) (hidden : Bool) :
    (root.build tokens h hidden).endpoints =
      ((paths tokens).map (List.map Element.keyword)).dedup.length := by
  refine endpoints_eq_length (sound_build tokens h hidden sound_root) (List.nodup_dedup _)
    fun p => ?_
  rw [isSome_handler_build_root, List.mem_dedup, List.mem_map]
  simp only [mem_paths, Spells]

end CommandTree

namespace Token

open CommandTree
open scoped Nat

/-! ## Branches told apart by their first keywords -/

/-- Runs of elements, none of them empty, that begin with distinct keywords. -/
structure HeadsApart (runs : List (List Element)) : Prop where
  ne_nil : ∀ r ∈ runs, r ≠ []
  heads : runs.Pairwise fun r s => r.head?.map Element.keyword ≠ s.head?.map Element.keyword

namespace HeadsApart

variable {runs : List (List Element)}

theorem nodup (h : HeadsApart runs) : runs.Nodup := h.heads.imp fun hne heq => hne (by rw [heq])

theorem eq_of_head (h : HeadsApart runs) {r s : List Element} (hr : r ∈ runs) (hs : s ∈ runs)
    (heq : r.head?.map Element.keyword = s.head?.map Element.keyword) : r = s := by
  by_contra hne
  have : Std.Symm fun r s : List Element =>
      r.head?.map Element.keyword ≠ s.head?.map Element.keyword := ⟨fun _ _ => Ne.symm⟩
  exact h.heads.forall hr hs hne heq

/-- **The keywords of joined branches tell which ones they are,** and in which order. -/
theorem eq_of_keywords (h : HeadsApart runs) {s t : List (List Element)} (hs : ∀ r ∈ s, r ∈ runs)
    (ht : ∀ r ∈ t, r ∈ runs)
    (heq : s.flatten.map Element.keyword = t.flatten.map Element.keyword) : s = t := by
  induction s generalizing t with
  | nil =>
    cases t with
    | nil => rfl
    | cons r t =>
      have hr := h.ne_nil r (ht r List.mem_cons_self)
      simp [hr] at heq
  | cons q s ih =>
    obtain ⟨hq, hs'⟩ := List.forall_mem_cons.mp hs
    cases t with
    | nil =>
      have hne := h.ne_nil q hq
      simp [hne] at heq
    | cons r t =>
      obtain ⟨hr, ht'⟩ := List.forall_mem_cons.mp ht
      rw [List.flatten_cons, List.flatten_cons, List.map_append, List.map_append] at heq
      -- The first keyword tells the first branch, and what is left is told by what is left.
      have hhead := congrArg List.head? heq
      rw [List.head?_append_of_ne_nil _ (mt List.map_eq_nil_iff.mp (h.ne_nil q hq)),
        List.head?_append_of_ne_nil _ (mt List.map_eq_nil_iff.mp (h.ne_nil r hr)),
        List.head?_map, List.head?_map] at hhead
      obtain rfl : q = r := h.eq_of_head hq hr hhead
      rw [ih hs' ht' (List.append_cancel_left heq)]

end HeadsApart

/-! ## The paths through a permutation -/

theorem paths_map_element (es : List Element) : paths (es.map element) = [es] := by
  induction es with
  | nil => rw [List.map_nil, paths]
  | cons e es ih => rw [List.map_cons, paths, ih, List.map_singleton]

theorem paths_permutation (front : List Element) (runs : List (List Element)) :
    paths (front.map element ++ [group .permutation (runs.map (List.map element))]) =
      (Selection.selections runs).map fun s => front ++ s.flatten := by
  have harranged (s : List (List Element)) :
      paths (s.map (List.map element)).flatten = [s.flatten] := by
    rw [← List.map_flatten, paths_map_element]
  rw [paths_append, paths_map_element, paths_group, arrangements, Selection.selections_map]
  simp [List.flatMap_map, harranged, paths, ← List.map_eq_flatMap]

theorem nodup_keywords_permutation {runs : List (List Element)} (h : HeadsApart runs)
    (front : List Element) :
    (((Selection.selections runs).map fun s => front ++ s.flatten).map
      (List.map Element.keyword)).Nodup := by
  have hmem : ∀ s ∈ Selection.selections runs, ∀ r ∈ s, r ∈ runs := fun s hs =>
    ((Selection.mem_selections_of_nodup h.nodup).mp hs).2.2
  rw [List.map_map]
  refine (Selection.nodup_selections h.nodup).map_on fun s hs t ht heq => ?_
  simp only [Function.comp_apply, List.map_append] at heq
  exact h.eq_of_keywords (hmem s hs) (hmem t ht) (List.append_cancel_left heq)

/-! ## The orders of a permutation -/

theorem length_arrangements_permutation (branches : List (List Token)) :
    (arrangements .permutation branches).length =
      ∑ k ∈ Finset.Icc 1 branches.length, branches.length ! / (branches.length - k)! := by
  rw [arrangements, List.length_map, Selection.length_selections]

/-- **What a permutation stands for.** Every sequence of places of branches, at least one and each
at most once, is taken, and none is taken twice. It stands for the tokens of its branches, joined in
this order. If the branches are runs of elements that are told apart by their first keywords, with a
run of elements before the permutation and nothing behind it, then the tree of the command alone has
an endpoint for each of these sequences. -/
theorem arrangements_orders (branches : List (List Token)) :
    (∃ orders : List (List (Fin branches.length)), orders.Nodup ∧
        (∀ places, places ∈ orders ↔ places ≠ [] ∧ places.Nodup) ∧
        arrangements .permutation branches =
          orders.map fun places => (places.map branches.get).flatten) ∧
      (arrangements .permutation branches).length =
        ∑ k ∈ Finset.Icc 1 branches.length, branches.length ! / (branches.length - k)! ∧
      ∀ runs, HeadsApart runs → branches = runs.map (List.map element) →
        ∀ (front : List Element) (handler : η) (hidden : Bool),
          (root.build (front.map element ++ [group .permutation branches]) handler
            hidden).endpoints =
            ∑ k ∈ Finset.Icc 1 branches.length, branches.length ! / (branches.length - k)! := by
  refine ⟨⟨Selection.selections (List.finRange branches.length), ?_, fun places => ?_, ?_⟩,
    length_arrangements_permutation branches, ?_⟩
  · exact Selection.nodup_selections (List.nodup_finRange _)
  · rw [Selection.mem_selections_of_nodup (List.nodup_finRange _)]
    simp
  · rw [arrangements, Selection.selections_eq_map_places, List.map_map]
    rfl
  · rintro runs hruns rfl front handler hidden
    rw [endpoints_build_root, paths_permutation,
      (nodup_keywords_permutation hruns front).dedup, List.length_map, List.length_map,
      Selection.length_selections, List.length_map]

/-- Three branches have fifteen orders, and the command has as many endpoints, also where one branch
has the first keyword of another one further on. -/
theorem arrangements_orders_three :
    let word (inGroup : Bool) (argspec : String) := Element.ofArgspec argspec "" inGroup
    let runs := [["a"], ["b", "a"], ["c"]].map (List.map (word true))
    let branches := runs.map (List.map element)
    compile "x \x7ba | b a | c\x7d" [] =
        .ok ([word false "x"].map element ++ [group .permutation branches]) ∧
      HeadsApart runs ∧ (arrangements .permutation branches).length = 15 ∧
      (root.build ([word false "x"].map element ++ [group .permutation branches]) 0
        false).endpoints = 15 := by
  intro word runs branches
  have hruns : HeadsApart runs := ⟨by decide +kernel, by decide +kernel⟩
  obtain ⟨-, hlength, hendpoints⟩ := arrangements_orders (η := ℕ) branches
  have hcount : ∑ k ∈ Finset.Icc 1 branches.length,
      branches.length ! / (branches.length - k)! = 15 := by
    decide +kernel
  refine ⟨by decide +kernel, hruns, hlength.trans hcount, ?_⟩
  exact (hendpoints runs hruns rfl [word false "x"] 0 false).trans hcount

end Token

end Console
