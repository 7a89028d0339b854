import Console.Expansion

/-!
# Trees that a line does not tell apart

Of a tree a line shows the keywords, what its places take, and where it goes on. A change of trees
that keeps all this, at each node, keeps what fragments are expanded to.

* `CommandTree.Mirrors`: a change of trees that keeps what a line shows;
* `Step.mirror`, `Expansion.mirror`: the steps and walks in the changed tree;
* `Mirrors.stepsFor_eq`, **`Mirrors.expandFrom_eq`**: one step and all expansions in the changed tree.
-/

namespace Console

universe u v

variable {η : Type u} {θ : Type v}

/-- A change of trees which keeps, at each node, the values that fragments have there, and whether
it may be repeated, is an argument and has a handler; its children are what those of the tree become
by the same change, below the same keys. -/
structure CommandTree.Mirrors (F : CommandTree η → CommandTree θ) : Prop where
  parse : ∀ t f, (F t).parse f = t.parse f
  isRecursive : ∀ t, (F t).element.isRecursive = t.element.isRecursive
  isArgument : ∀ t, (F t).element.isArgument = t.element.isArgument
  handler : ∀ t, (F t).handler.isSome = t.handler.isSome
  child? : ∀ t key, (F t).child? key = (t.child? key).map F
  trees : ∀ t, (F t).children.trees = t.children.trees.map F

/-- A step in the changed tree. -/
def Step.mirror (F : CommandTree η → CommandTree θ) (s : Step η) : Step θ :=
  ⟨s.value, F s.node, s.stays⟩

/-- A walk in the changed tree. -/
def Expansion.mirror (F : CommandTree η → CommandTree θ) (e : Expansion η) : Expansion θ :=
  ⟨e.steps.map (Step.mirror F)⟩

namespace Expansion

theorem extend_mirror (F : CommandTree η → CommandTree θ) (e : Expansion η) (s : Step η) :
    (e.mirror F).extend (s.mirror F) = (e.extend s).mirror F := by
  simp [extend, mirror]

theorem last?_mirror (F : CommandTree η → CommandTree θ) (e : Expansion η) :
    (e.mirror F).last? = e.last?.map F := by
  simp only [last?, mirror, List.getLast?_map, Option.map_map]
  rfl

end Expansion

namespace CommandTree.Mirrors

variable {F : CommandTree η → CommandTree θ}

theorem arguments_eq (hF : Mirrors F) (e : Expansion η) : (e.mirror F).arguments = e.arguments := by
  simp only [Expansion.arguments, Expansion.mirror, List.filter_map, List.map_map,
    Function.comp_def, Step.mirror, hF.isArgument]

theorem stepsFor_eq (hF : Mirrors F) (t : CommandTree η) (f : String) :
    (F t).stepsFor f = (t.stepsFor f).map (Step.mirror F) := by
  rw [stepsFor, stepsFor, hF.child?, hF.isRecursive, hF.parse, hF.trees]
  cases t.child? f with
  | some c => rfl
  | none =>
    cases if t.element.isRecursive then t.parse f else none with
    | some value => rfl
    | none =>
      simp only [Option.map_none, List.filterMap_map, List.map_filterMap, Function.comp_def,
        hF.parse, Option.map_map, Step.mirror]

/-- **Fragments are expanded in the changed tree as in the tree.** -/
theorem expandFrom_eq (hF : Mirrors F) (t : CommandTree η) (walk : Expansion η) (lookahead : Bool)
    (fs : List String) :
    expandFrom (F t) (walk.mirror F) lookahead fs =
      (expandFrom t walk lookahead fs).map (Expansion.mirror F) := by
  have hoptions (walk : Expansion η) (ss : List (Step η)) :
      (ss.map (Step.mirror F)).map (walk.mirror F).extend =
        (ss.map walk.extend).map (Expansion.mirror F) := by
    simp only [List.map_map, Function.comp_def, Expansion.extend_mirror]
  induction fs generalizing t walk with
  | nil =>
    cases lookahead with
    | true =>
      rw [expandFrom, expandFrom, if_pos rfl, if_pos rfl, hF.stepsFor_eq, hoptions,
        List.map_append, hF.handler]
      cases t.handler.isSome <;> rfl
    | false =>
      rw [expandFrom, expandFrom, if_neg Bool.false_ne_true, if_neg Bool.false_ne_true]
      cases h : walk.steps <;> simp [Expansion.mirror, h]
  | cons f fs ih =>
    rw [expandFrom, expandFrom, hF.stepsFor_eq]
    rcases t.stepsFor f with _ | ⟨s, _ | ⟨s', ss⟩⟩
    · rfl
    · have hs := ih s.node (walk.extend s)
      rwa [← Expansion.extend_mirror] at hs
    · exact hoptions walk (s :: s' :: ss)

end CommandTree.Mirrors

end Console
