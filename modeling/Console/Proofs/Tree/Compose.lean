import Console.Proofs.Tree.Walk

/-!
# Reading fragments in two parts

Fragments are read one after another, each at the node that those before it have reached, up to the
first that has not just one step. What comes behind that one is not looked at.

* `exists_walks_before`: the last fragment that a reading looks at; **`expand_of_last`**: its steps
  end the expansions;
* `expandFrom_append`: what was walked before only stands in front of what is found;
* **`expand_append`**: the expansions of two lists of fragments, one behind the other.
-/

namespace Console

universe u

variable {η : Type u}

namespace CommandTree

/-! ## The last fragment that is looked at -/

theorem expandFrom_cons_of_ne {t : CommandTree η} {f : String} (h : (t.stepsFor f).length ≠ 1)
    (walk : Expansion η) (lookahead : Bool) (fs : List String) :
    expandFrom t walk lookahead (f :: fs) = (t.stepsFor f).map walk.extend := by
  rw [expandFrom]
  split
  · rename_i s hs
    exact absurd (by rw [hs]; rfl) h
  · rfl

theorem expandFrom_cons_of_eq {t : CommandTree η} {f : String} {s : Step η}
    (h : t.stepsFor f = [s]) (walk : Expansion η) (lookahead : Bool) (fs : List String) :
    expandFrom t walk lookahead (f :: fs) = expandFrom s.node (walk.extend s) lookahead fs := by
  rw [expandFrom, h]

theorem expandFrom_singleton (t : CommandTree η) (walk : Expansion η) (f : String) :
    expandFrom t walk false [f] = (t.stepsFor f).map walk.extend := by
  by_cases hone : (t.stepsFor f).length = 1
  · obtain ⟨s, hs⟩ := List.length_eq_one_iff.mp hone
    rw [expandFrom_cons_of_eq hs, hs]
    simp [expandFrom, Expansion.extend]
  · exact expandFrom_cons_of_ne hone walk false []

/-- The fragments before the last one that is looked at are walked along. Only if that one has not
just one step, others may come behind it. -/
theorem exists_walks_before (t : CommandTree η) {fs : List String} (hfs : fs ≠ []) :
    ∃ before f after ss, fs = before ++ f :: after ∧ t.Walks before ss ∧
      ((((Expansion.mk ss).reached t).stepsFor f).length = 1 → after = []) := by
  induction fs generalizing t with
  | nil => exact absurd rfl hfs
  | cons f fs ih =>
    by_cases hone : (t.stepsFor f).length = 1
    · cases fs with
      | nil => exact ⟨[], f, [], [], rfl, .nil t, fun _ => rfl⟩
      | cons g gs =>
        obtain ⟨s, hs⟩ := List.length_eq_one_iff.mp hone
        obtain ⟨before, h, after, ss, hsplit, hwalk, hlast⟩ := ih s.node (List.cons_ne_nil g gs)
        refine ⟨f :: before, h, after, s :: ss, by rw [hsplit]; rfl, .cons hs hwalk, ?_⟩
        rwa [Expansion.reached_cons]
    · exact ⟨[], f, fs, [], rfl, .nil t, fun h => absurd h hone⟩

/-- **The steps of the last fragment that is looked at end the expansions.** -/
theorem expand_of_last {t : CommandTree η} {before after : List String} {f : String}
    {ss : List (Step η)} (hwalk : t.Walks before ss)
    (hlast : (((Expansion.mk ss).reached t).stepsFor f).length = 1 → after = []) :
    expand t (before ++ f :: after) false =
      (((Expansion.mk ss).reached t).stepsFor f).map (Expansion.mk ss).extend := by
  have hgo : expand t (before ++ f :: after) false =
      expandFrom ((Expansion.mk ss).reached t) ⟨ss⟩ false (f :: after) :=
    expandFrom_append_of_walks hwalk .start false _
  rw [hgo]
  by_cases hone : (((Expansion.mk ss).reached t).stepsFor f).length = 1
  · rw [hlast hone, expandFrom_singleton]
  · exact expandFrom_cons_of_ne hone _ false after

/-! ## Two parts -/

/-- What was walked before only stands in front of what is found. Without a look ahead, a walk of no
steps is not a reading, so that there must be some step. -/
theorem expandFrom_append (t : CommandTree η) (e walk : Expansion η) (lookahead : Bool)
    (fs : List String) (h : fs ≠ [] ∨ lookahead = true ∨ walk.steps ≠ []) :
    expandFrom t (e ++ walk) lookahead fs = (expandFrom t walk lookahead fs).map (e ++ ·) := by
  have hoptions (walk : Expansion η) (ss : List (Step η)) :
      ss.map (e ++ walk).extend = (ss.map walk.extend).map (e ++ ·) := by
    rw [List.map_map]
    exact List.map_congr_left fun s _ => e.append_extend walk s
  induction fs generalizing t walk with
  | nil =>
    cases lookahead with
    | true =>
      rw [expandFrom, expandFrom, if_pos rfl, if_pos rfl, List.map_append, hoptions]
      split_ifs <;> rfl
    | false =>
      have hne : walk.steps ≠ [] := by simpa using h
      have hne' : (e ++ walk).steps ≠ [] := by simp [Expansion.steps_append, hne]
      simp [expandFrom, hne, hne']
  | cons f fs ih =>
    by_cases hone : (t.stepsFor f).length = 1
    · obtain ⟨s, hs⟩ := List.length_eq_one_iff.mp hone
      rw [expandFrom_cons_of_eq hs, expandFrom_cons_of_eq hs, e.append_extend]
      exact ih s.node (walk.extend s) (.inr (.inr (by simp [Expansion.extend])))
    · rw [expandFrom_cons_of_ne hone, expandFrom_cons_of_ne hone, hoptions]

theorem expand_append_of_ne {t : CommandTree η} {fs : List String} (hfs : fs ≠ [])
    (h : (expand t fs false).length ≠ 1) (gs : List String) (lookahead : Bool) :
    expand t (fs ++ gs) lookahead = expand t fs false := by
  obtain ⟨before, f, after, ss, rfl, hwalk, hlast⟩ := exists_walks_before t hfs
  have hread := expand_of_last hwalk hlast
  have hne : (((Expansion.mk ss).reached t).stepsFor f).length ≠ 1 := by
    rwa [hread, List.length_map] at h
  have hgo := expandFrom_append_of_walks hwalk .start lookahead (f :: (after ++ gs))
  rw [List.append_assoc, List.cons_append, expand, hgo, expandFrom_cons_of_ne hne, hread]
  rfl

/-- **The expansions of two lists of fragments, one behind the other.** Where the first list has one
expansion, which ends at a node, the expansions of both are those of the second list from this node,
behind that of the first. Where the first list is ambiguous or cannot be read, what comes behind it
makes no difference. -/
theorem expand_append (t : CommandTree η) (fs : List String) :
    (∀ e, expand t fs false = [e] → ∃ n, e.last? = some n ∧
      ∀ gs lookahead, gs ≠ [] ∨ lookahead = true →
        expand t (fs ++ gs) lookahead = (expand n gs lookahead).map (e ++ ·)) ∧
      (2 ≤ (expand t fs false).length →
        ∀ gs lookahead, expand t (fs ++ gs) lookahead = expand t fs false) ∧
      (fs ≠ [] → expand t fs false = [] → ∀ gs lookahead, expand t (fs ++ gs) lookahead = []) := by
  refine ⟨fun e he => ?_, fun hmany => ?_, fun hfs hnone => ?_⟩
  · obtain ⟨n, hn⟩ := exists_last?_of_expand he
    have hreached : (Expansion.mk e.steps).reached t = n := by
      rw [Expansion.reached, hn, Option.getD_some]
    refine ⟨n, hn, fun gs lookahead hmore => ?_⟩
    have hgo := expandFrom_append n e ⟨[]⟩ lookahead gs (hmore.imp_right Or.inl)
    rw [e.append_nil] at hgo
    rw [expand, expandFrom_append_of_walks (walks_of_expand he), hreached]
    exact hgo
  · have hfs : fs ≠ [] := by
      rintro rfl
      simp [expand, expandFrom, Expansion.start] at hmany
    exact expand_append_of_ne hfs (by omega)
  · intro gs lookahead
    rw [← hnone]
    exact expand_append_of_ne hfs (by simp [hnone]) gs lookahead

/-- A tree with some paths, each of which has a handler at its end. -/
def ofLines (lines : List (List String)) : CommandTree ℕ :=
  lines.foldl (fun t words => attach 0 false (words.map fun w => .ofArgspec w "" false) t) root

theorem sound_ofLines (lines : List (List String)) : (ofLines lines).Sound := by
  unfold ofLines
  induction lines using List.reverseRecOn with
  | nil => exact sound_root
  | append_singleton lines words ih =>
    rw [List.foldl_append]
    exact sound_attach _ _ _ ih

/-- Below a place that may be repeated, what comes next is read from this place again. Behind an
ambiguous fragment nothing is read. -/
theorem expand_append_run :
    let t := ofLines [["run", ".WORD"], ["run", ".WORD", "end"], ["show", "ip"], ["show", "ipv6"]]
    (∃ e n, expand t ["r", "x"] false = [e] ∧ e.values = [.word "run", .word "x"] ∧
      e.last? = some n ∧ n.keyword = "WORD" ∧
      expand t (["r", "x"] ++ ["y", "end"]) false = (expand n ["y", "end"] false).map (e ++ ·)) ∧
    2 ≤ (expand t ["s", "i"] false).length ∧
    expand t (["s", "i"] ++ ["x"]) true = expand t ["s", "i"] false ∧
    expand t ["x"] false = [] ∧ expand t (["x"] ++ ["run"]) true = [] := by
  intro t
  have hrun : ((expand t ["r", "x"] false).map fun e =>
      (e.values, e.last?.map CommandTree.keyword)) =
        [([.word "run", .word "x"], some "WORD")] := by
    decide +kernel
  obtain ⟨e, he, hfacts⟩ := List.map_eq_singleton_iff.mp hrun
  obtain ⟨hvalues, hkeyword⟩ := Prod.mk.inj hfacts
  obtain ⟨n, hn, hgo⟩ := (expand_append t ["r", "x"]).1 e he
  rw [hn, Option.map_some, Option.some.injEq] at hkeyword
  have hmany : 2 ≤ (expand t ["s", "i"] false).length := by decide +kernel
  have hnone : expand t ["x"] false = [] := List.length_eq_zero_iff.mp (by decide +kernel)
  refine ⟨⟨e, n, he, hvalues, hn, hkeyword, hgo _ _ (.inl (List.cons_ne_nil _ _))⟩, hmany, ?_,
    hnone, ?_⟩
  · exact (expand_append t ["s", "i"]).2.1 hmany ["x"] true
  · exact (expand_append t ["x"]).2.2 (List.cons_ne_nil _ _) hnone ["run"] true

end CommandTree

end Console
