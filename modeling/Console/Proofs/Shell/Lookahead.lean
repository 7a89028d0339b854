import Console.Proofs.Shell.Loaded
import Console.Proofs.Tree.Walk

/-!
# What a look ahead lists

When all fragments are read, a look ahead tries the empty text at the node that they have reached.
The empty text begins every keyword, so that it fits every child; but a child with the empty keyword
is met first, and then a node that may be repeated takes the empty text for itself.

* `CommandTree.Resolves`: fragments that are read in one way;
* `Resolves.expand_lookahead`: the readings with a look ahead;
* `stepsFor_empty_of_isRecursive`, `stepsFor_empty_of_not_isRecursive`: what the empty text fits;
* **`Shell.lookahead_of_resolves`**: which children are listed, whether the node itself is, and
  whether the walk so far is.
-/

namespace Console

universe u

variable {η : Type u} {σ : Type}

namespace Expansion

theorem extend_inj {e : Expansion η} {s s' : Step η} : e.extend s = e.extend s' ↔ s = s' := by
  simp [extend]

theorem extend_ne (e : Expansion η) (s : Step η) : e.extend s ≠ e := by
  intro h
  have := congrArg (fun e => e.steps.length) h
  simp [extend] at this

end Expansion

namespace CommandTree

/-- `e` is the only way to read these fragments; no fragments are read without a step. -/
def Resolves (t : CommandTree η) (fs : List String) (e : Expansion η) : Prop :=
  fs = [] ∧ e = .start ∨ expand t fs false = [e]

theorem Resolves.walks {t : CommandTree η} {fs : List String} {e : Expansion η}
    (h : t.Resolves fs e) : t.Walks fs e.steps := by
  rcases h with ⟨rfl, rfl⟩ | h
  · exact .nil t
  · exact walks_of_expand h

/-! ## The readings with a look ahead -/

theorem expandFrom_lookahead_of_walks {t : CommandTree η} {fs : List String} {ss : List (Step η)}
    (h : t.Walks fs ss) (walk : Expansion η) :
    expandFrom t walk true fs =
      (((Expansion.mk ss).reached t).stepsFor "").map (walk ++ ⟨ss⟩).extend ++
        if ((Expansion.mk ss).reached t).handler.isSome then [walk ++ ⟨ss⟩] else [] := by
  have hend := expandFrom_append_of_walks h walk true []
  rw [List.append_nil] at hend
  rw [hend, expandFrom, if_pos rfl]

theorem Resolves.expand_lookahead {t : CommandTree η} {fs : List String} {e : Expansion η}
    (h : t.Resolves fs e) :
    expand t fs true = ((e.reached t).stepsFor "").map e.extend ++
      if (e.reached t).handler.isSome then [e] else [] :=
  expandFrom_lookahead_of_walks h.walks .start

theorem Resolves.extend_mem {t : CommandTree η} {fs : List String} {e : Expansion η}
    (h : t.Resolves fs e) (s : Step η) :
    e.extend s ∈ expand t fs true ↔ s ∈ (e.reached t).stepsFor "" := by
  rw [h.expand_lookahead, List.mem_append, List.mem_map]
  constructor
  · rintro (⟨s', hs', heq⟩ | hself)
    · exact Expansion.extend_inj.mp heq ▸ hs'
    · split_ifs at hself
      · exact absurd (List.mem_singleton.mp hself) (e.extend_ne s)
      · cases hself
  · exact fun hs => .inl ⟨s, hs, rfl⟩

theorem Resolves.self_mem {t : CommandTree η} {fs : List String} {e : Expansion η}
    (h : t.Resolves fs e) : e ∈ expand t fs true ↔ (e.reached t).handler.isSome = true := by
  rw [h.expand_lookahead, List.mem_append, List.mem_map]
  constructor
  · rintro (⟨s, -, heq⟩ | hself)
    · exact absurd heq (e.extend_ne s)
    · split_ifs at hself with hh
      · exact hh
      · cases hself
  · intro hh
    rw [if_pos hh]
    exact .inr (List.mem_singleton_self e)

/-! ## What the empty text fits -/

theorem parse_empty (t : CommandTree η) : t.parse "" = some (.word t.keyword) :=
  parse_of_begins List.nil_prefix

theorem stepsFor_empty_of_isRecursive {t : CommandTree η} (h : t.child? "" = none)
    (hr : t.element.isRecursive = true) : t.stepsFor "" = [⟨.word t.keyword, t, true⟩] :=
  stepsFor_of_self h hr t.parse_empty

theorem stepsFor_empty_of_not_isRecursive {t : CommandTree η} (h : t.child? "" = none)
    (hr : t.element.isRecursive = false) :
    t.stepsFor "" = t.children.trees.map fun c => ⟨.word c.keyword, c, false⟩ := by
  simp only [stepsFor, h, hr, Bool.false_eq_true, if_false, parse_empty, Option.map_some,
    List.filterMap_eq_map']

/-- A child is fitted by the empty text if it has the empty key, or if neither a child with this key
nor the node itself takes it. -/
theorem exists_child_stepsFor_empty {t c : CommandTree η} (ht : t.Sound) {k : String}
    (hc : t.child? k = some c) :
    (∃ v, ⟨v, c, false⟩ ∈ t.stepsFor "") ↔
      k = "" ∨ t.child? "" = none ∧ t.element.isRecursive = false := by
  obtain ⟨hk, -⟩ := sound_child ht hc
  cases hempty : t.child? "" with
  | some d =>
    obtain ⟨hd, -⟩ := sound_child ht hempty
    rw [stepsFor_of_child hempty]
    constructor
    · rintro ⟨v, hv⟩
      obtain ⟨-, rfl, -⟩ := Step.mk.inj (List.mem_singleton.mp hv)
      exact .inl (hk.symm.trans hd)
    · rintro (rfl | ⟨h, -⟩)
      · rw [hempty] at hc
        cases hc
        exact ⟨_, List.mem_singleton_self _⟩
      · cases h
  | none =>
    have hne : k ≠ "" := by
      rintro rfl
      rw [hempty] at hc
      cases hc
    cases hr : t.element.isRecursive with
    | true =>
      rw [stepsFor_empty_of_isRecursive hempty hr]
      simp [hne]
    | false =>
      rw [stepsFor_empty_of_not_isRecursive hempty hr]
      have hmem : c ∈ t.children.trees := (Children.mem_trees (sound_iff.mp ht)).mpr (hk ▸ hc)
      simpa [hne] using hmem

theorem exists_self_stepsFor_empty {t : CommandTree η} :
    (∃ v, ⟨v, t, true⟩ ∈ t.stepsFor "") ↔
      t.element.isRecursive = true ∧ t.child? "" = none := by
  cases hempty : t.child? "" with
  | some d =>
    rw [stepsFor_of_child hempty]
    simp
  | none =>
    cases hr : t.element.isRecursive with
    | true =>
      rw [stepsFor_empty_of_isRecursive hempty hr]
      simp
    | false =>
      rw [stepsFor_empty_of_not_isRecursive hempty hr]
      simp

end CommandTree

namespace Shell

/-- **What a look ahead lists.** Let `e` be the only way to read some fragments in a loaded shell,
or no step at all, and `n` the node that it has reached. A child of `n` is listed if and only if its
key is empty, or `n` has no child with the empty key and may not be repeated. The node itself is
listed if and only if it may be repeated and has no child with the empty key. The walk `e` is listed
if and only if `n` has a handler. -/
theorem lookahead_of_resolves {prompt : String} {sets : List (CommandSet σ)} {s : Shell σ}
    (hs : Shell.LoadedWith prompt sets s) {fs : List String} {e : Expansion (Handler σ)}
    (he : s.root.Resolves fs e) {n : CommandTree (Handler σ)} (hn : e.reached s.root = n) :
    (∀ k c, n.child? k = some c →
      ((∃ v, e.extend ⟨v, c, false⟩ ∈ expand s.root fs true) ↔
        k = "" ∨ n.child? "" = none ∧ n.element.isRecursive = false)) ∧
      ((∃ v, e.extend ⟨v, n, true⟩ ∈ expand s.root fs true) ↔
        n.element.isRecursive = true ∧ n.child? "" = none) ∧
      (e ∈ expand s.root fs true ↔ n.handler.isSome = true) := by
  subst hn
  have hsound : (e.reached s.root).Sound := he.walks.sound_reached hs.gains.sound
  refine ⟨fun k c hc => ?_, ?_, he.self_mem⟩
  · simp only [he.extend_mem]
    exact CommandTree.exists_child_stepsFor_empty hsound hc
  · simp only [he.extend_mem]
    exact CommandTree.exists_self_stepsFor_empty

/-- A shell with a place that may be repeated, and a word after it. -/
def ofRun : Shell Unit :=
  ((Shell.empty ">").load (.ofList [.idle "run .WORD end" false 0]) ()).shell

theorem loadedWith_ofRun : Shell.LoadedWith ">" [.ofList [.idle "run .WORD end" false 0]] ofRun :=
  .load _ () .empty (by decide +kernel)

theorem lookahead_of_resolves_run :
    ∃ e c, ofRun.root.Resolves ["run"] e ∧ (e.reached ofRun.root).child? "WORD" = some c ∧
      (∃ v, e.extend ⟨v, c, false⟩ ∈ expand ofRun.root ["run"] true) ∧
      e ∉ expand ofRun.root ["run"] true := by
  have hexpand : ((expand ofRun.root ["run"] false).map fun e =>
      let n := e.reached ofRun.root
      ((n.child? "WORD").isSome, (n.child? "").isNone, n.element.isRecursive, n.handler.isSome)) =
        [(true, true, false, false)] := by
    decide +kernel
  obtain ⟨e, he, hfacts⟩ := List.map_eq_singleton_iff.mp hexpand
  simp only [Prod.mk.injEq, Option.isNone_iff_eq_none] at hfacts
  obtain ⟨hword, hempty, hrecursive, hhandler⟩ := hfacts
  obtain ⟨c, hc⟩ := Option.isSome_iff_exists.mp hword
  obtain ⟨hchild, -, hself⟩ := lookahead_of_resolves loadedWith_ofRun (.inr he) rfl
  refine ⟨e, c, .inr he, hc, (hchild "WORD" c hc).mpr (.inr ⟨hempty, hrecursive⟩), fun h => ?_⟩
  rw [hself, hhandler] at h
  cases h

/-- The word after a place that may be repeated is not listed, although it is accepted. -/
theorem end_notMem_lookahead_run :
    Shell.LoadedWith ">" [.ofList [.idle "run .WORD end" false 0]] ofRun ∧
      ∃ e c, ofRun.root.Resolves ["run", "x"] e ∧
        (e.reached ofRun.root).child? "end" = some c ∧
        (∀ r ∈ expand ofRun.root ["run", "x"] true, r.last? ≠ some c) ∧
        ((expand ofRun.root ["run", "x", "end"] false).map fun r =>
          (r.last?.bind CommandTree.handler).map Handler.serial) = [some 0] := by
  have hexpand : ((expand ofRun.root ["run", "x"] false).map fun e =>
      ((e.reached ofRun.root).child? "end").map CommandTree.keyword) = [some "end"] := by
    decide +kernel
  have hlisted : ((expand ofRun.root ["run", "x"] true).map fun r =>
      r.last?.map CommandTree.keyword) = [some "WORD"] := by
    decide +kernel
  obtain ⟨e, he, hc⟩ := List.map_eq_singleton_iff.mp hexpand
  obtain ⟨c, hc, hkeyword⟩ := Option.map_eq_some_iff.mp hc
  refine ⟨loadedWith_ofRun, e, c, .inr he, hc, fun r hr hlast => ?_, by decide +kernel⟩
  have hmem := List.mem_map_of_mem (f := fun r => r.last?.map CommandTree.keyword) hr
  rw [hlisted, List.mem_singleton, hlast, Option.map_some, hkeyword] at hmem
  exact absurd hmem (by decide)

/-- Beside a child with the empty keyword no other child is listed. -/
example :
    let s := ((Shell.empty ">").load (.ofList [.idle "show (.|ip)" false 0]) ()).shell
    ((expand s.root ["show"] true).map fun r => r.last?.map CommandTree.keyword) = [some ""] := by
  decide +kernel

end Shell

end Console
