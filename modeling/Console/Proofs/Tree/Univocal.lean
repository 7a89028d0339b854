import Console.Proofs.Tree.Accepts
import Console.Proofs.Tree.Build
import Console.Proofs.Tree.Trail

/-!
# Trees of tokens that spell each path in one way

Paths of a specification share the nodes of their common keywords. If beginnings of paths that are
spelled in the same way are the same, then every node stands behind one sequence of elements only,
and its children stand for the elements that may come next. If moreover no element may be repeated,
every step goes on to one of them.

* `Token.Begins`, `Token.Univocal`: beginnings of paths, which are known by their keywords;
* `Token.Behind`: the node behind some elements, in the tree of the tokens alone;
* `Behind.element_eq`, `Behind.handler_eq`: what stands there;
* `Behind.exists_child`, `Behind.exists_behind_of_child`: its children;
* `Behind.stepsFor_of_only`, `Behind.stepsFor_eq_nil`: a fragment that the only element to come
  takes, and one that none of them takes;
* **`Behind.walks`**: a walk goes behind the elements of its nodes.
-/

namespace Console

universe u

variable {η : Type u}

theorem Expansion.map_element_nodes (e : Expansion η) :
    e.nodes.map CommandTree.element = e.steps.map fun s => s.node.element :=
  List.map_map

namespace CommandTree

theorem lookup_append_singleton (t : CommandTree η) (p : List String) (k : String) :
    t.lookup (p ++ [k]) = (t.lookup p).bind (·.child? k) := by
  induction p generalizing t with
  | nil => simp [lookup]
  | cons l p ih =>
    rw [List.cons_append, lookup, lookup]
    cases t.child? l with
    | none => rfl
    | some c => exact ih c

theorem sound_of_lookup {t n : CommandTree η} (ht : t.Sound) {p : List String}
    (h : t.lookup p = some n) : n.Sound := by
  induction p generalizing t with
  | nil => exact Option.some.inj h ▸ ht
  | cons k p ih =>
    obtain ⟨c, hc, hn⟩ := Option.bind_eq_some_iff.mp h
    exact ih (sound_child ht hc).2 hn

end CommandTree

namespace Token

open CommandTree

/-- A path of the tokens begins with these elements. -/
def Begins (tokens : List Token) (xs : List Element) : Prop := ∃ ys, Denotes tokens (xs ++ ys)

/-- Beginnings of paths that are spelled in the same way are the same, and no element of a path may
be repeated. -/
structure Univocal (tokens : List Token) : Prop where
  eq_of_keywords : ∀ xs ys, Begins tokens xs → Begins tokens ys →
    xs.map Element.keyword = ys.map Element.keyword → xs = ys
  plain : ∀ xs, Begins tokens xs → ∀ x ∈ xs, x.isRecursive = false

/-- The node behind the elements `xs`, with which some path begins, in the tree of the tokens. -/
structure Behind (tokens : List Token) (handler : η) (hidden : Bool) (xs : List Element)
    (n : CommandTree η) : Prop where
  begins : Begins tokens xs
  lookup_eq : (root.build tokens handler hidden).lookup (xs.map Element.keyword) = some n

variable {tokens : List Token} {handler : η} {hidden : Bool} {xs : List Element}
  {n : CommandTree η}

theorem Begins.of_append {ys : List Element} (h : Begins tokens (xs ++ ys)) : Begins tokens xs := by
  obtain ⟨zs, hzs⟩ := h
  exact ⟨ys ++ zs, by rwa [← List.append_assoc]⟩

theorem reaches_iff {p : List String} :
    Reaches tokens p ↔ ∃ xs, Begins tokens xs ∧ xs.map Element.keyword = p := by
  constructor
  · rintro ⟨_, ⟨es, hes, rfl⟩, hpre⟩
    obtain ⟨xs, ⟨ys, rfl⟩, hp⟩ := List.prefix_map_iff.mp hpre
    exact ⟨xs, ⟨ys, hes⟩, hp.symm⟩
  · rintro ⟨xs, ⟨ys, hes⟩, rfl⟩
    exact ⟨_, ⟨_, hes, rfl⟩, by simp⟩

/-! ## What stands behind some elements -/

theorem isSome_lookup_build {p : List String} (hp : p ≠ []) :
    ((root.build tokens handler hidden).lookup p).isSome = true ↔ Reaches tokens p := by
  have hnone : ((root : CommandTree η).lookup p).isSome = false := by
    have hlabel := labelAt_leaf (η := η) Element.root false hp
    rw [labelAt, Option.map_eq_none_iff] at hlabel
    rw [root, hlabel, Option.isSome_none]
  rw [(leaves_of_ne_nil tokens handler hidden root hp).exists_iff, hnone]
  simp

theorem behind_nil (h : Begins tokens []) :
    Behind tokens handler hidden [] (root.build tokens handler hidden) :=
  ⟨h, rfl⟩

theorem Behind.element_eq (hu : Univocal tokens) {x : Element}
    (h : Behind tokens handler hidden (xs ++ [x]) n) : n.element = x := by
  have hp : (xs ++ [x]).map Element.keyword ≠ [] := by simp
  have hlabel := labelAt_build tokens handler hidden root hp
  rw [root, labelAt_leaf _ _ hp, Label.joined_none_left, labelAt, ← root, h.lookup_eq,
    Option.map_some, ← labels] at hlabel
  have helement :=
    Label.element_all (labels tokens handler hidden ((xs ++ [x]).map Element.keyword))
  rw [← hlabel, Option.map_some] at helement
  obtain ⟨l, hl, hle⟩ := Option.map_eq_some_iff.mp helement.symm
  -- Every label that the tokens bring there is that of the last element.
  obtain ⟨fs, e, gs, hes, hkeys, rfl⟩ := mem_labels.mp (List.mem_of_head? hl)
  have hsame := hu.eq_of_keywords _ _ h.begins ⟨gs, by rwa [List.append_assoc]⟩ hkeys
  have hlast : x = e := by simpa using (List.append_inj' hsame rfl).2
  rw [hlast]
  exact hle.symm

theorem Behind.handler_eq (h : Behind tokens handler hidden xs n) (hne : xs ≠ [])
    (hpath : Denotes tokens xs) : n.handler = some handler := by
  have hp : xs.map Element.keyword ≠ [] := mt List.map_eq_nil_iff.mp hne
  have hleaves := (leaves_of_ne_nil tokens handler hidden root hp).handler_spelled ⟨xs, hpath, rfl⟩
  rwa [h.lookup_eq, Option.bind_some] at hleaves

/-! ## What comes next -/

theorem Behind.exists_child (h : Behind tokens handler hidden xs n) {x : Element}
    (hx : Begins tokens (xs ++ [x])) :
    ∃ m, n.child? x.keyword = some m ∧ Behind tokens handler hidden (xs ++ [x]) m := by
  have hp : (xs ++ [x]).map Element.keyword ≠ [] := by simp
  have hsome : ((root.build tokens handler hidden).lookup
      ((xs ++ [x]).map Element.keyword)).isSome = true :=
    (isSome_lookup_build hp).mpr (reaches_iff.mpr ⟨_, hx, rfl⟩)
  obtain ⟨m, hm⟩ := Option.isSome_iff_exists.mp hsome
  refine ⟨m, ?_, hx, hm⟩
  rwa [List.map_append, List.map_singleton, lookup_append_singleton, h.lookup_eq,
    Option.bind_some] at hm

theorem Behind.exists_behind_of_child (hu : Univocal tokens)
    (h : Behind tokens handler hidden xs n) {k : String} {m : CommandTree η}
    (hm : n.child? k = some m) : Behind tokens handler hidden (xs ++ [m.element]) m := by
  have hlookup : (root.build tokens handler hidden).lookup (xs.map Element.keyword ++ [k]) =
      some m := by
    rw [lookup_append_singleton, h.lookup_eq, Option.bind_some, hm]
  have hne : xs.map Element.keyword ++ [k] ≠ [] :=
    List.append_ne_nil_of_right_ne_nil _ (List.cons_ne_nil k [])
  have hreach := (isSome_lookup_build hne).mp (Option.isSome_iff_exists.mpr ⟨m, hlookup⟩)
  obtain ⟨zs, hzs, hkeys⟩ := reaches_iff.mp hreach
  obtain ⟨ys, z, rfl, hys, hz⟩ : ∃ ys z, zs = ys ++ [z] ∧ ys.map Element.keyword =
      xs.map Element.keyword ∧ z.keyword = k := by
    obtain ⟨ys, last, rfl, hys, hlast⟩ := List.map_eq_append_iff.mp hkeys
    obtain ⟨z, rfl, hz⟩ := List.map_eq_singleton_iff.mp hlast
    exact ⟨ys, z, rfl, hys, hz⟩
  obtain rfl : ys = xs := hu.eq_of_keywords _ _ hzs.of_append h.begins hys
  have hbehind : Behind tokens handler hidden (ys ++ [z]) m := by
    refine ⟨hzs, ?_⟩
    rw [List.map_append, List.map_singleton, hz, hlookup]
  rwa [hbehind.element_eq hu]

theorem Behind.sound (h : Behind tokens handler hidden xs n) : n.Sound :=
  sound_of_lookup (sound_build tokens handler hidden sound_root) h.lookup_eq

theorem Behind.isRecursive_eq (hu : Univocal tokens)
    (h : Behind tokens handler hidden xs n) : n.element.isRecursive = false := by
  rcases List.eq_nil_or_concat' xs with rfl | ⟨ys, x, rfl⟩
  · obtain rfl : root.build tokens handler hidden = n := Option.some.inj h.lookup_eq
    rw [element_build]
    exact (by decide +kernel : Element.root.isRecursive = false)
  · rw [h.element_eq hu]
    exact hu.plain _ h.begins x (List.mem_append_right ys List.mem_cons_self)

theorem Behind.step (hu : Univocal tokens)
    (h : Behind tokens handler hidden xs n) {f : String} {s : Step η} (hs : s ∈ n.stepsFor f) :
    s.stays = false ∧ Behind tokens handler hidden (xs ++ [s.node.element]) s.node := by
  rcases stays_or_child_of_mem_stepsFor h.sound hs with ⟨-, -, hrec⟩ | ⟨hgoes, hchild⟩
  · rw [h.isRecursive_eq hu] at hrec
    cases hrec
  · exact ⟨hgoes, h.exists_behind_of_child hu hchild⟩

/-- **A walk goes behind the elements of its nodes.** -/
theorem Behind.walks (hu : Univocal tokens)
    (h : Behind tokens handler hidden xs n) {fs : List String} {ss : List (Step η)}
    (hwalk : n.Walks fs ss) :
    Behind tokens handler hidden (xs ++ ss.map fun s => s.node.element)
      ((Expansion.mk ss).reached n) := by
  induction hwalk generalizing xs with
  | nil n =>
    rw [List.map_nil, List.append_nil]
    exact h
  | @cons n f fs s ss only rest ih =>
    have hstep := (h.step hu (only ▸ List.mem_singleton_self s)).2
    rw [List.map_cons, Expansion.reached_cons, List.append_cons]
    exact ih hstep

theorem Behind.stepsFor_of_only (hu : Univocal tokens)
    (h : Behind tokens handler hidden xs n) {x : Element}
    (honly : ∀ y, Begins tokens (xs ++ [y]) → y = x) {m : CommandTree η}
    (hm : n.child? x.keyword = some m) {f : String} {v : Value} (hv : m.parse f = some v) :
    n.stepsFor f = [⟨v, m, false⟩] := by
  have hnode {k : String} {c : CommandTree η} (hc : n.child? k = some c) : c = m := by
    have hx := honly _ (h.exists_behind_of_child hu hc).begins
    obtain ⟨rfl, -⟩ := sound_child h.sound hc
    rw [CommandTree.keyword, hx, hm] at hc
    exact (Option.some.inj hc).symm
  refine stepsFor_eq_singleton h.sound fun s => ⟨fun hs => ?_, ?_⟩
  · obtain ⟨hgoes, -⟩ := h.step hu hs
    obtain ⟨hvalue, ⟨k, hk⟩ | ⟨-, hrec⟩⟩ := parse_of_mem_stepsFor h.sound hs
    · obtain ⟨value, node, stays⟩ := s
      obtain rfl : stays = false := hgoes
      obtain rfl : node = m := hnode hk
      obtain rfl : value = v := Option.some.inj (hvalue.symm.trans hv)
      rfl
    · rw [h.isRecursive_eq hu] at hrec
      cases hrec
  · rintro rfl
    cases hf : n.child? f with
    | some c =>
      obtain rfl : c = m := hnode hf
      obtain ⟨rfl, -⟩ := sound_child h.sound hf
      rw [c.parse_keyword, Option.some.injEq] at hv
      rw [stepsFor_of_child hf, hv]
      exact List.mem_singleton_self _
    | none =>
      have hopen : n.Open f := ⟨hf, fun hrec => by
        rw [h.isRecursive_eq hu] at hrec
        cases hrec⟩
      obtain ⟨hkey, -⟩ := sound_child h.sound hm
      exact (mem_stepsFor_of_open hopen).mpr
        ⟨(Children.mem_trees (sound_iff.mp h.sound)).mpr (hkey ▸ hm), hv, rfl⟩

theorem Behind.stepsFor_eq_nil (hu : Univocal tokens)
    (h : Behind tokens handler hidden xs n) {f : String}
    (hnone : ∀ x, Begins tokens (xs ++ [x]) →
      x.converter = none ∧ ¬ f.toList <+: x.keyword.toList) :
    n.stepsFor f = [] := by
  refine List.eq_nil_iff_forall_not_mem.mpr fun s hs => ?_
  obtain ⟨hword, hbegins⟩ := hnone _ (h.step hu hs).2.begins
  obtain ⟨c, hc, -⟩ := (from_of_mem_stepsFor h.sound hs).converted hbegins
  rw [hword] at hc
  cases hc

end Token

end Console
