import Console.Proofs.Spec.RoundTrip
import Console.Proofs.Tree.Merge

/-!
# The keys of assembled trees

Trees are assembled from single nodes by adding compiled specifications and by merging. In all of
them a child is stored under its own keyword, and below the top this keyword is one that a
specification can hold.

* `CommandTree.Assembled`: the trees that are made so;
* `CommandTree.Keyed`: a sound tree in which the keys below the top are keywords of specifications;
* `keyed_leaf`, **`Keyed.build`**, **`Keyed.mergeInto`**: each way to make a tree keeps it keyed;
* **`Assembled.keyed`**: assembled trees are keyed.
-/

namespace Console

universe u

variable {η : Type u}

namespace CommandTree

/-- The trees that are made from single nodes, by adding compiled specifications and by merging. A
merge that fails leaves a tree too. -/
inductive Assembled : CommandTree η → Prop where
  | leaf (e : Element) : Assembled (leaf e false)
  | build {t : CommandTree η} {spec : String} {help : List String} {tokens : List Token}
    (before : Assembled t) (compiles : compile spec help = .ok tokens) (handler : η)
    (hidden : Bool) : Assembled (t.build tokens handler hidden)
  | merge {t u : CommandTree η} (target : Assembled t) (source : Assembled u) :
    Assembled (t.mergeInto u).target

/-- A sound tree in which every key below the top is one that a specification can hold. -/
structure Keyed (t : CommandTree η) : Prop where
  sound : t.Sound
  isKeyword : ∀ p, (t.labelAt p).isSome = true → ∀ k ∈ p, IsKeyword k

theorem isSome_labelAt {t : CommandTree η} {p : List String} :
    (t.labelAt p).isSome = true ↔ ∃ n, t.lookup p = some n := by
  rw [labelAt, Option.isSome_map, Option.isSome_iff_exists]

theorem keyword_of_lookup {t n : CommandTree η} (ht : t.Sound) {p : List String} {k : String}
    (h : t.lookup (p ++ [k]) = some n) : n.keyword = k := by
  induction p generalizing t with
  | nil =>
    obtain ⟨c, hc, hn⟩ := Option.bind_eq_some_iff.mp h
    obtain rfl : c = n := Option.some.inj hn
    exact (sound_child ht hc).1
  | cons j p ih =>
    obtain ⟨c, hc, hn⟩ := Option.bind_eq_some_iff.mp h
    exact ih (sound_child ht hc).2 hn

theorem keyed_leaf (e : Element) (hidden : Bool) : (leaf e hidden : CommandTree η).Keyed := by
  refine ⟨sound_leaf e hidden, fun p hp k hk => ?_⟩
  rw [labelAt_leaf e hidden (List.ne_nil_of_mem hk)] at hp
  cases hp

/-- **Adding a compiled specification keeps a tree keyed.** -/
theorem Keyed.build {t : CommandTree η} (ht : t.Keyed) {spec : String} {help : List String}
    {tokens : List Token} (hc : compile spec help = .ok tokens) (handler : η) (hidden : Bool) :
    (t.build tokens handler hidden).Keyed := by
  refine ⟨sound_build tokens handler hidden ht.sound, fun p hp k hk => ?_⟩
  rw [labelAt_build tokens handler hidden t (List.ne_nil_of_mem hk), Label.isSome_joined] at hp
  rcases hp with hp | hp
  · exact ht.isKeyword p hp k hk
  · rw [Option.isSome_iff_ne_none, ne_eq, Label.all_eq_none] at hp
    obtain ⟨l, hl⟩ := List.exists_mem_of_ne_nil _ hp
    obtain ⟨es, hes, hl⟩ := List.mem_filterMap.mp hl
    obtain ⟨fs, e, gs, rfl, rfl, -⟩ := Label.along_eq_some.mp hl
    obtain ⟨f, hf, rfl⟩ := List.mem_map.mp hk
    have hmem : f ∈ fs ++ e :: gs := by
      rw [List.append_cons]
      exact List.mem_append_left gs hf
    exact (Token.mem_paths.mp hes).isKeyword (wellFormed_of_compile hc).2 f hmem

/-- **A merge keeps its target keyed, whether it fails or not.** -/
theorem Keyed.mergeInto {t u : CommandTree η} (ht : t.Keyed) (hu : u.Keyed) :
    (t.mergeInto u).target.Keyed := by
  by_cases h : t.keyword = u.keyword
  · obtain ⟨v, hv, hsound, -, hlabel⟩ := exists_merge u t ht.sound hu.sound h
    rw [(mergeInto_of_merge hv).2]
    refine ⟨hsound, fun p hp => ?_⟩
    rw [hlabel, Label.isSome_joined] at hp
    exact hp.elim (ht.isKeyword p) (hu.isKeyword p)
  · rw [mergeInto_of_ne h]
    exact ht

/-- **Assembled trees are keyed.** -/
theorem Assembled.keyed {t : CommandTree η} (h : t.Assembled) : t.Keyed := by
  induction h with
  | leaf e => exact keyed_leaf e false
  | build _ compiles handler hidden ih => exact ih.build compiles handler hidden
  | merge _ _ iht ihu => exact iht.mergeInto ihu

end CommandTree

end Console
