import Console.Expansion
import Console.Proofs.Text.Decimal
import Console.Proofs.Tree.Label

/-!
# Walks through a tree

Fragments that can be read in one way only are a walk through the tree, one step for each fragment.

* `Converter.Delivers`: the value that a place of some kind has for a fragment;
  **`apply_eq_some`**: its converter finds it;
* `Expansion.append`: one walk after another; `Expansion.reached`: the node that a walk has reached;
* `CommandTree.Walks`: a walk; **`walks_of_expand`**, **`expand_of_walks`**: the only reading of
  some fragments is one, and the other way round;
* `exists_walks_of_lookup`, **`exists_expand_of_lookup`**: the keys to a node are a walk to it, and
  have no other reading;
* `parse_of_mem_stepsFor`: a step has the value that its fragment has at the node it leads to;
* **`Walks.forall₂`**: what every step preserves holds along a walk.
-/

namespace Console

universe u

variable {η : Type u}

open Text

/-- The value that the fragment `f` has at a place of this kind: at a variable itself, and at a
range the integer between its bounds that it denotes. -/
def Converter.Delivers : Converter → String → Value → Prop
  | .variable, f, v => v = .word f
  | .range first last, f, v =>
    ∃ n : Int64, v = .integer n ∧ Decimal.Denotes f.toList n.toInt ∧ first ≤ n ∧ n ≤ last

/-- **A converter finds the value of a fragment.** -/
theorem Converter.apply_eq_some {c : Converter} {f : String} {v : Value} :
    c.apply f = some v ↔ c.Delivers f v := by
  rcases c with _ | ⟨first, last⟩
  · rw [apply, Delivers, Option.some.injEq, eq_comm]
  · rw [apply, Delivers, Option.bind_eq_some_iff]
    constructor
    · rintro ⟨n, hn, hv⟩
      split_ifs at hv with hbounds
      exact ⟨n, (Option.some.inj hv).symm, Decimal.int64?_eq_some.mp hn, hbounds⟩
    · rintro ⟨n, rfl, hn, hbounds⟩
      exact ⟨n, Decimal.int64?_eq_some.mpr hn, if_pos hbounds⟩

namespace Expansion

/-- One walk, and another one after it. -/
protected def append (e d : Expansion η) : Expansion η := ⟨e.steps ++ d.steps⟩

instance : Append (Expansion η) := ⟨Expansion.append⟩

theorem steps_append (e d : Expansion η) : (e ++ d).steps = e.steps ++ d.steps := rfl

theorem append_nil (e : Expansion η) : e ++ mk [] = e :=
  congrArg mk (List.append_nil e.steps)

theorem append_step (e : Expansion η) (s : Step η) (ss : List (Step η)) :
    e ++ mk (s :: ss) = e.extend s ++ mk ss :=
  congrArg mk (List.append_cons e.steps s ss)

theorem append_extend (e d : Expansion η) (s : Step η) : (e ++ d).extend s = e ++ d.extend s :=
  congrArg mk (List.append_assoc e.steps d.steps [s])

/-- The node that a walk from `t` has reached. -/
def reached (e : Expansion η) (t : CommandTree η) : CommandTree η := e.last?.getD t

theorem reached_of_last? {e : Expansion η} {n : CommandTree η} (h : e.last? = some n)
    (t : CommandTree η) : e.reached t = n := by
  rw [reached, h, Option.getD_some]

theorem steps_ne_nil {e : Expansion η} {n : CommandTree η} (h : e.last? = some n) :
    e.steps ≠ [] := by
  intro hnil
  rw [last?, hnil] at h
  cases h

theorem reached_cons (s : Step η) (ss : List (Step η)) (t : CommandTree η) :
    (mk (s :: ss)).reached t = (mk ss).reached s.node := by
  simp [reached, last?, List.getLast?_cons]

end Expansion

namespace CommandTree

/-! ## One step -/

theorem parse_of_begins {t : CommandTree η} {f : String}
    (h : f.toList <+: t.keyword.toList) : t.parse f = some (.word t.keyword) :=
  if_pos (List.isPrefixOf_iff_prefix.mpr h)

theorem parse_of_not_begins {t : CommandTree η} {f : String}
    (h : ¬ f.toList <+: t.keyword.toList) :
    t.parse f = t.element.converter.bind (·.apply f) :=
  if_neg (mt List.isPrefixOf_iff_prefix.mp h)

theorem parse_keyword (t : CommandTree η) : t.parse t.keyword = some (.word t.keyword) :=
  parse_of_begins List.prefix_rfl

/-- A step leads to a child, or stays at a node that may be repeated; it has the value that its
fragment has at the node it leads to. -/
theorem parse_of_mem_stepsFor {t : CommandTree η} (ht : t.Sound) {f : String} {s : Step η}
    (h : s ∈ t.stepsFor f) :
    s.node.parse f = some s.value ∧
      ((∃ k, t.child? k = some s.node) ∨ s.node = t ∧ t.element.isRecursive = true) := by
  unfold stepsFor at h
  split at h
  · rename_i child hchild
    rw [List.mem_singleton.mp h]
    obtain ⟨rfl, -⟩ := sound_child ht hchild
    exact ⟨child.parse_keyword, .inl ⟨_, hchild⟩⟩
  · split at h
    · rename_i value hvalue
      rw [List.mem_singleton.mp h]
      split_ifs at hvalue with hrec
      exact ⟨hvalue, .inr ⟨rfl, hrec⟩⟩
    · obtain ⟨c, hc, hs⟩ := List.mem_filterMap.mp h
      obtain ⟨value, hvalue, rfl⟩ := Option.map_eq_some_iff.mp hs
      exact ⟨hvalue, .inl ⟨c.keyword, (Children.mem_trees (sound_iff.mp ht)).mp hc⟩⟩

theorem sound_of_mem_stepsFor {t : CommandTree η} (ht : t.Sound) {f : String} {s : Step η}
    (h : s ∈ t.stepsFor f) : s.node.Sound := by
  obtain ⟨-, ⟨k, hk⟩ | ⟨hnode, -⟩⟩ := parse_of_mem_stepsFor ht h
  · exact (sound_child ht hk).2
  · exact hnode ▸ ht

/-! ## Walks -/

/-- A walk from a node: each fragment has one step from the node that the walk has reached. -/
inductive Walks : CommandTree η → List String → List (Step η) → Prop where
  | nil (t : CommandTree η) : Walks t [] []
  | cons {t : CommandTree η} {f : String} {fs : List String} {s : Step η} {ss : List (Step η)}
    (only : t.stepsFor f = [s]) (rest : Walks s.node fs ss) : Walks t (f :: fs) (s :: ss)

theorem Walks.length_eq {t : CommandTree η} {fs : List String} {ss : List (Step η)}
    (h : t.Walks fs ss) : ss.length = fs.length := by
  induction h with
  | nil t => rfl
  | cons only rest ih => rw [List.length_cons, List.length_cons, ih]

theorem Walks.sound_reached {t : CommandTree η} {fs : List String} {ss : List (Step η)}
    (h : t.Walks fs ss) (ht : t.Sound) : ((Expansion.mk ss).reached t).Sound := by
  induction h with
  | nil t => exact ht
  | @cons t f fs s ss only rest ih =>
    rw [Expansion.reached_cons]
    exact ih (sound_of_mem_stepsFor ht (only ▸ List.mem_singleton_self s))

theorem walks_of_expandFrom {t : CommandTree η} {walk e : Expansion η} {fs : List String}
    (h : expandFrom t walk false fs = [e]) : ∃ ss, e = ⟨walk.steps ++ ss⟩ ∧ t.Walks fs ss := by
  induction fs generalizing t walk with
  | nil =>
    unfold expandFrom at h
    rw [if_neg Bool.false_ne_true] at h
    split_ifs at h with hempty
    cases h
    exact ⟨[], by rw [List.append_nil], .nil t⟩
  | cons f fs ih =>
    unfold expandFrom at h
    split at h
    · rename_i s hs
      obtain ⟨ss, rfl, hwalk⟩ := ih h
      exact ⟨s :: ss, by simp [Expansion.extend], .cons hs hwalk⟩
    · rename_i hmany
      obtain ⟨s, hs, -⟩ := List.map_eq_singleton_iff.mp h
      exact absurd hs (hmany s)

/-- **The only reading of some fragments is a walk.** -/
theorem walks_of_expand {t : CommandTree η} {fs : List String} {e : Expansion η}
    (h : expand t fs false = [e]) : t.Walks fs e.steps := by
  obtain ⟨ss, rfl, hwalk⟩ := walks_of_expandFrom h
  exact hwalk

theorem exists_last?_of_expand {t : CommandTree η} {fs : List String} {e : Expansion η}
    (h : expand t fs false = [e]) : ∃ n, e.last? = some n := by
  obtain ⟨ss⟩ := e
  cases walks_of_expand h with
  | nil => cases h
  | cons only rest => simp [Expansion.last?, List.getLast?_cons]

theorem expandFrom_append_of_walks {t : CommandTree η} {fs : List String} {ss : List (Step η)}
    (h : t.Walks fs ss) (walk : Expansion η) (lookahead : Bool) (gs : List String) :
    expandFrom t walk lookahead (fs ++ gs) =
      expandFrom ((Expansion.mk ss).reached t) (walk ++ ⟨ss⟩) lookahead gs := by
  induction h generalizing walk with
  | nil t =>
    rw [walk.append_nil]
    rfl
  | @cons t f fs s ss only rest ih =>
    rw [List.cons_append, expandFrom, only, Expansion.reached_cons, walk.append_step]
    exact ih (walk.extend s)

theorem expandFrom_of_walks {t : CommandTree η} {fs : List String} {ss : List (Step η)}
    (h : t.Walks fs ss) (walk : Expansion η) (hne : walk.steps ++ ss ≠ []) :
    expandFrom t walk false fs = [⟨walk.steps ++ ss⟩] := by
  have hend := expandFrom_append_of_walks h walk false []
  rw [List.append_nil] at hend
  rw [hend, expandFrom, if_neg Bool.false_ne_true, Expansion.steps_append,
    if_neg (mt List.isEmpty_iff.mp hne)]
  rfl

/-- **A walk of some steps is the only reading of its fragments.** -/
theorem expand_of_walks {t : CommandTree η} {fs : List String} {ss : List (Step η)}
    (h : t.Walks fs ss) (hne : ss ≠ []) : expand t fs false = [⟨ss⟩] :=
  expandFrom_of_walks h .start hne

/-! ## Walks along keys -/

theorem stepsFor_of_child {t c : CommandTree η} {k : String} (h : t.child? k = some c) :
    t.stepsFor k = [⟨.word k, c, false⟩] := by
  simp only [stepsFor, h]

theorem stepsFor_of_self {t : CommandTree η} {f : String} {v : Value} (hfree : t.child? f = none)
    (hrec : t.element.isRecursive = true) (hv : t.parse f = some v) :
    t.stepsFor f = [⟨v, t, true⟩] := by
  simp only [stepsFor, hfree, hrec, if_true, hv]

theorem lookup_cons_of_child {t c : CommandTree η} {k : String} (h : t.child? k = some c)
    (p : List String) : t.lookup (k :: p) = c.lookup p := by
  rw [lookup, h, Option.bind_some]

theorem exists_walks_of_lookup {t n : CommandTree η} {p : List String} (h : t.lookup p = some n) :
    ∃ ss, t.Walks p ss ∧ ss.map Step.value = p.map .word ∧
      ∀ i < p.length, (ss.map Step.node)[i]? = t.lookup (p.take (i + 1)) := by
  induction p generalizing t with
  | nil => exact ⟨[], .nil t, rfl, fun i hi => absurd hi (Nat.not_lt_zero i)⟩
  | cons k p ih =>
    obtain ⟨c, hc, hn⟩ := Option.bind_eq_some_iff.mp h
    obtain ⟨ss, hwalk, hvalues, hnodes⟩ := ih hn
    refine ⟨⟨.word k, c, false⟩ :: ss, .cons (stepsFor_of_child hc) hwalk, ?_, fun i hi => ?_⟩
    · rw [List.map_cons, List.map_cons, hvalues]
    · rw [List.take_succ_cons, lookup_cons_of_child hc]
      cases i with
      | zero => simp [lookup]
      | succ i =>
        have := hnodes i (by simpa using hi)
        simpa using this

/-- **The keys to a node are read in one way only**, as the way to this node. -/
theorem exists_expand_of_lookup {t n : CommandTree η} {p : List String}
    (h : t.lookup p = some n) (hp : p ≠ []) : ∃ e, expand t p false = [e] ∧ e.values = p.map .word ∧
      e.nodes.length = p.length ∧ (∀ i < p.length, e.nodes[i]? = t.lookup (p.take (i + 1))) ∧
      e.last? = some n := by
  obtain ⟨ss, hwalk, hvalues, hnodes⟩ := exists_walks_of_lookup h
  have hlength : ss.length = p.length := by
    have := congrArg List.length hvalues
    simpa using this
  have hpos : 0 < p.length := List.length_pos_iff.mpr hp
  have hne : ss ≠ [] := by
    rintro rfl
    simp at hlength
    omega
  refine ⟨⟨ss⟩, expand_of_walks hwalk hne, hvalues, ?_, hnodes, ?_⟩
  · simp [Expansion.nodes, hlength]
  · have hlast := hnodes (p.length - 1) (by omega)
    have hall : p.take (p.length - 1 + 1) = p := List.take_of_length_le (by omega)
    rw [hall, h] at hlast
    rw [Expansion.last?, ← List.getLast?_map, List.getLast?_eq_getElem?, List.length_map, hlength]
    exact hlast

/-! ## What a walk preserves -/

/-- **What every step preserves holds along a walk.** If a step from a node with `I` has `Q` and
leads to a node with `I`, then every step of a walk from such a node has `Q`. -/
theorem Walks.forall₂ {I : CommandTree η → Prop} {Q : String → Step η → Prop}
    (preserved : ∀ t f s, I t → s ∈ t.stepsFor f → Q f s ∧ I s.node) {t : CommandTree η}
    {fs : List String} {ss : List (Step η)} (h : t.Walks fs ss) (start : I t) :
    List.Forall₂ Q fs ss := by
  induction h with
  | nil t => exact .nil
  | @cons t f fs s ss only rest ih =>
    obtain ⟨hq, hi⟩ := preserved t f s start (only ▸ List.mem_singleton_self s)
    exact .cons hq (ih hi)

end CommandTree

end Console
