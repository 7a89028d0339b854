import Console.Proofs.Tree.Walk

/-!
# The keys that an expansion has followed

Every expansion goes down the tree from child to child, except where it stays at a node that may be
repeated. This holds of ambiguous expansions and of those that a look ahead adds as well. The
keywords of the nodes that it goes to, without those it stays at, are the path of keys to its end.

* `Expansion.path`: these keywords;
* `CommandTree.Leads`, **`leads_of_mem_expand`**: every expansion is made of steps from node to
  node;
* **`lookup_path_of_mem_expand`**: the path of an expansion leads to its last node.
-/

namespace Console

universe u

variable {η : Type u}

namespace Expansion

/-- The keywords of the nodes that a walk has gone to. A step that stays has gone nowhere. -/
def path (e : Expansion η) : List String :=
  (e.steps.filter fun s => !s.stays).map fun s => s.node.keyword

theorem path_cons_of_stays {s : Step η} (hs : s.stays = true) (ss : List (Step η)) :
    (mk (s :: ss)).path = (mk ss).path := by
  simp [path, hs]

theorem path_cons_of_not_stays {s : Step η} (hs : s.stays = false) (ss : List (Step η)) :
    (mk (s :: ss)).path = s.node.keyword :: (mk ss).path := by
  simp [path, hs]

theorem last?_eq_of_getElem? {e : Expansion η} {i : ℕ} {n : CommandTree η}
    (h : e.nodes[i]? = some n) (hi : e.steps.length ≤ i + 1) : e.last? = some n := by
  obtain ⟨hlt, -⟩ := List.getElem?_eq_some_iff.mp h
  have hlength : e.nodes.length = e.steps.length := List.length_map _
  have hlast : e.nodes.length - 1 = i := by omega
  rw [last?, ← List.getLast?_map, ← nodes, List.getLast?_eq_getElem?, hlast, h]

end Expansion

namespace CommandTree

theorem stays_or_child_of_mem_stepsFor {t : CommandTree η} (ht : t.Sound) {f : String}
    {s : Step η} (h : s ∈ t.stepsFor f) :
    (s.stays = true ∧ s.node = t ∧ t.element.isRecursive = true) ∨
      (s.stays = false ∧ t.child? s.node.keyword = some s.node) := by
  unfold stepsFor at h
  split at h
  · rename_i child hchild
    rw [List.mem_singleton.mp h]
    exact .inr ⟨rfl, (sound_child ht hchild).1.symm ▸ hchild⟩
  · split at h
    · rename_i value hvalue
      rw [List.mem_singleton.mp h]
      split_ifs at hvalue with hrec
      exact .inl ⟨rfl, rfl, hrec⟩
    · obtain ⟨c, hc, hs⟩ := List.mem_filterMap.mp h
      obtain ⟨value, -, rfl⟩ := Option.map_eq_some_iff.mp hs
      exact .inr ⟨rfl, (Children.mem_trees (sound_iff.mp ht)).mp hc⟩

/-- Steps one after another, each one of those that some fragment may stand for. -/
inductive Leads : CommandTree η → List (Step η) → Prop where
  | nil (t : CommandTree η) : Leads t []
  | cons {t : CommandTree η} {f : String} {s : Step η} {ss : List (Step η)}
    (mem : s ∈ t.stepsFor f) (rest : Leads s.node ss) : Leads t (s :: ss)

theorem leads_of_mem_expandFrom {t : CommandTree η} {walk e : Expansion η} {lookahead : Bool}
    {fs : List String} (h : e ∈ expandFrom t walk lookahead fs) :
    ∃ ss, e = ⟨walk.steps ++ ss⟩ ∧ t.Leads ss ∧ ss.length ≤ fs.length + lookahead.toNat := by
  have hone {t : CommandTree η} {walk : Expansion η} {f : String}
      (h : e ∈ (t.stepsFor f).map walk.extend) :
      ∃ ss, e = ⟨walk.steps ++ ss⟩ ∧ t.Leads ss ∧ ss.length = 1 := by
    obtain ⟨s, hs, rfl⟩ := List.mem_map.mp h
    exact ⟨[s], rfl, .cons hs (.nil _), rfl⟩
  have hnone {walk : Expansion η} (h : e ∈ [walk]) : e = ⟨walk.steps ++ []⟩ := by
    rw [List.mem_singleton.mp h, List.append_nil]
  induction fs generalizing t walk with
  | nil =>
    cases lookahead with
    | false =>
      simp only [expandFrom, Bool.false_eq_true, if_false] at h
      split_ifs at h
      · cases h
      · exact ⟨[], hnone h, .nil t, Nat.le_refl _⟩
    | true =>
      rcases List.mem_append.mp h with h | h
      · obtain ⟨ss, hss, hleads, hlength⟩ := hone h
        exact ⟨ss, hss, hleads, Nat.le_of_eq hlength⟩
      · split_ifs at h
        · exact ⟨[], hnone h, .nil t, Nat.zero_le _⟩
        · cases h
  | cons f fs ih =>
    unfold expandFrom at h
    split at h
    · rename_i s hs
      obtain ⟨ss, rfl, hrest, hlength⟩ := ih h
      refine ⟨s :: ss, by simp [Expansion.extend], .cons (hs ▸ List.mem_singleton_self s) hrest, ?_⟩
      simp only [List.length_cons]
      omega
    · obtain ⟨ss, hss, hleads, hlength⟩ := hone h
      refine ⟨ss, hss, hleads, ?_⟩
      simp only [List.length_cons]
      omega

/-- **Every expansion is made of steps from node to node**, one for each fragment at the most and
one more for a look ahead. -/
theorem leads_of_mem_expand {t : CommandTree η} {e : Expansion η} {lookahead : Bool}
    {fs : List String} (h : e ∈ expand t fs lookahead) :
    t.Leads e.steps ∧ e.steps.length ≤ fs.length + lookahead.toNat := by
  obtain ⟨ss, rfl, hleads⟩ := leads_of_mem_expandFrom h
  exact hleads

theorem Leads.lookup_path {t : CommandTree η} {ss : List (Step η)} (h : t.Leads ss)
    (ht : t.Sound) : t.lookup (Expansion.mk ss).path = some ((Expansion.mk ss).reached t) := by
  induction h with
  | nil t => rfl
  | @cons t f s ss mem rest ih =>
    rw [Expansion.reached_cons]
    rcases stays_or_child_of_mem_stepsFor ht mem with ⟨hstays, hnode, -⟩ | ⟨hgoes, hchild⟩
    · rw [Expansion.path_cons_of_stays hstays]
      rw [hnode] at ih ⊢
      exact ih ht
    · rw [Expansion.path_cons_of_not_stays hgoes, lookup_cons_of_child hchild]
      exact ih (sound_child ht hchild).2

theorem Leads.path_ne_nil {t : CommandTree η} {ss : List (Step η)} (h : t.Leads ss)
    (ht : t.Sound) (hrec : t.element.isRecursive = false) (hne : ss ≠ []) :
    (Expansion.mk ss).path ≠ [] := by
  cases h with
  | nil => exact absurd rfl hne
  | cons mem rest =>
    rcases stays_or_child_of_mem_stepsFor ht mem with ⟨-, -, hrec'⟩ | ⟨hgoes, -⟩
    · rw [hrec] at hrec'
      cases hrec'
    · rw [Expansion.path_cons_of_not_stays hgoes]
      exact List.cons_ne_nil _ _

/-- **The path of an expansion leads to its last node.** -/
theorem lookup_path_of_mem_expand {t : CommandTree η} (ht : t.Sound)
    (hrec : t.element.isRecursive = false) {e : Expansion η} {lookahead : Bool} {fs : List String}
    (h : e ∈ expand t fs lookahead) {n : CommandTree η} (hn : e.last? = some n) :
    e.path ≠ [] ∧ t.lookup e.path = some n := by
  obtain ⟨hleads, -⟩ := leads_of_mem_expand h
  refine ⟨hleads.path_ne_nil ht hrec ?_, ?_⟩
  · intro hsteps
    simp [Expansion.last?, hsteps] at hn
  · rw [hleads.lookup_path ht]
    simp [Expansion.reached, hn]

end CommandTree

end Console
