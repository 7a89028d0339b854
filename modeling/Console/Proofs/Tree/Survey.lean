import Console.Proofs.Tree.Sound
import Console.Tree.Survey

/-!
# What a survey lists

A survey lists the nodes that are found along paths of keys, each with its path, and nothing else.
What a computation has checked of the nodes in a survey is so known of all nodes, and what it has
counted there is counted once.

* **`CommandTree.mem_survey`**: a node is listed with a path if and only if it is found there;
* **`CommandTree.nodup_survey`**: no path is listed twice;
* **`CommandTree.endpoints_eq_length`**: the endpoints are as many as the paths that end at a
  handler.
-/

namespace Console

universe u

variable {η : Type u}

mutual

theorem CommandTree.mem_surveyFrom (path p : List String) (n : CommandTree η) :
    ∀ t : CommandTree η, t.Sound →
      ((p, n) ∈ t.surveyFrom path ↔ ∃ q, p = path ++ q ∧ t.lookup q = some n)
  | .node e h hidden cs, ht => by
    rw [CommandTree.surveyFrom, List.mem_cons, Children.mem_surveyFrom path p n cs ht]
    constructor
    · rintro (hhere | ⟨k, q, c, rfl, hc, hq⟩)
      · obtain ⟨rfl, rfl⟩ := Prod.mk.inj hhere
        exact ⟨[], (List.append_nil _).symm, rfl⟩
      · exact ⟨k :: q, rfl, Option.bind_eq_some_iff.mpr ⟨c, hc, hq⟩⟩
    · rintro ⟨_ | ⟨k, q⟩, rfl, hq⟩
      · obtain rfl := Option.some.inj hq
        exact .inl (by rw [List.append_nil])
      · obtain ⟨c, hc, hq⟩ := Option.bind_eq_some_iff.mp hq
        exact .inr ⟨k, q, c, rfl, hc, hq⟩

theorem Children.mem_surveyFrom (path p : List String) (n : CommandTree η) :
    ∀ cs : Children η, cs.Sound → ((p, n) ∈ cs.surveyFrom path ↔
      ∃ k q c, p = path ++ k :: q ∧ cs.get? k = some c ∧ c.lookup q = some n)
  | .nil, _ => by simp [Children.surveyFrom, Children.get?]
  | .cons key child rest, ⟨hkey, hchild, hless, hrest⟩ => by
    rw [Children.surveyFrom, List.mem_append, CommandTree.mem_surveyFrom _ p n child hchild,
      Children.mem_surveyFrom path p n rest hrest]
    constructor
    · rintro (⟨q, rfl, hq⟩ | ⟨k, q, c, rfl, hc, hq⟩)
      · exact ⟨key, q, child, by rw [List.append_assoc]; rfl, if_pos rfl, hq⟩
      · have hne : key ≠ k := by
          rintro rfl
          rw [Children.get?_of_lt hless] at hc
          cases hc
        exact ⟨k, q, c, rfl, (if_neg hne).trans hc, hq⟩
    · rintro ⟨k, q, c, rfl, hc, hq⟩
      rw [Children.get?] at hc
      split_ifs at hc with hk
      · obtain rfl := Option.some.inj hc
        exact .inl ⟨q, by rw [hk, List.append_assoc]; rfl, hq⟩
      · exact .inr ⟨k, q, c, rfl, hc, hq⟩

end

/-- **A node is listed with a path if and only if it is found there.** -/
theorem CommandTree.mem_survey {t : CommandTree η} (ht : t.Sound) {p : List String}
    {n : CommandTree η} : (p, n) ∈ t.survey ↔ t.lookup p = some n := by
  rw [survey, mem_surveyFrom [] p n t ht]
  constructor
  · rintro ⟨q, rfl, hq⟩
    exact hq
  · exact fun h => ⟨p, rfl, h⟩

/-! ## Each path once -/

theorem CommandTree.prefix_of_mem_surveyFrom {path p : List String} {t : CommandTree η}
    (ht : t.Sound) (h : p ∈ (t.surveyFrom path).map Prod.fst) : path <+: p := by
  obtain ⟨⟨_, n⟩, hn, rfl⟩ := List.mem_map.mp h
  obtain ⟨q, rfl, -⟩ := (mem_surveyFrom path _ n t ht).mp hn
  exact List.prefix_append path q

theorem Children.exists_prefix_of_mem_surveyFrom {path p : List String} {cs : Children η}
    (hcs : cs.Sound) (h : p ∈ (cs.surveyFrom path).map Prod.fst) :
    ∃ k ∈ cs.keys, path ++ [k] <+: p := by
  obtain ⟨⟨_, n⟩, hn, rfl⟩ := List.mem_map.mp h
  obtain ⟨k, q, c, rfl, hc, -⟩ := (mem_surveyFrom path _ n cs hcs).mp hn
  refine ⟨k, ?_, by simp⟩
  by_contra hk
  rw [get?_eq_none.mpr hk] at hc
  cases hc

mutual

theorem CommandTree.nodup_surveyFrom (path : List String) :
    ∀ t : CommandTree η, t.Sound → ((t.surveyFrom path).map Prod.fst).Nodup
  | .node e h hidden cs, ht => by
    rw [CommandTree.surveyFrom, List.map_cons, List.nodup_cons]
    refine ⟨fun hmem => ?_, Children.nodup_surveyFrom path cs ht⟩
    obtain ⟨k, -, hk⟩ := Children.exists_prefix_of_mem_surveyFrom ht hmem
    simpa using hk.length_le

theorem Children.nodup_surveyFrom (path : List String) :
    ∀ cs : Children η, cs.Sound → ((cs.surveyFrom path).map Prod.fst).Nodup
  | .nil, _ => List.nodup_nil
  | .cons key child rest, ⟨_, hchild, hless, hrest⟩ => by
    rw [Children.surveyFrom, List.map_append, List.nodup_append]
    refine ⟨CommandTree.nodup_surveyFrom _ child hchild, Children.nodup_surveyFrom path rest hrest,
      fun p hp q hq heq => ?_⟩
    -- Paths below different children differ in the key of the child.
    have hkey := CommandTree.prefix_of_mem_surveyFrom hchild hp
    obtain ⟨k, hk, hpre⟩ := Children.exists_prefix_of_mem_surveyFrom hrest hq
    rw [heq] at hkey
    have hsame : path ++ [key] = path ++ [k] :=
      (List.prefix_of_prefix_length_le hkey hpre (by simp)).eq_of_length (by simp)
    obtain rfl : key = k := by simpa using hsame
    exact lt_irrefl key (hless key hk)

end

namespace CommandTree

/-- **No path is listed twice.** -/
theorem nodup_survey {t : CommandTree η} (ht : t.Sound) : (t.survey.map Prod.fst).Nodup :=
  nodup_surveyFrom [] t ht

/-- **The endpoints are as many as the paths that end at a handler.** -/
theorem endpoints_eq_length {t : CommandTree η} (ht : t.Sound) {ps : List (List String)}
    (hps : ps.Nodup) (h : ∀ p, p ∈ ps ↔ ((t.lookup p).bind handler).isSome = true) :
    t.endpoints = ps.length := by
  let listed := (t.survey.filter fun x => x.2.handler.isSome).map Prod.fst
  have hlisted : listed.Nodup := (nodup_survey ht).sublist (List.filter_sublist.map Prod.fst)
  have hmem : ∀ p, p ∈ listed ↔ p ∈ ps := by
    intro p
    rw [h, List.mem_map]
    constructor
    · rintro ⟨⟨_, n⟩, hn, rfl⟩
      obtain ⟨hn, hhandler⟩ := List.mem_filter.mp hn
      rw [(mem_survey ht).mp hn]
      exact hhandler
    · intro hhandler
      cases hn : t.lookup p with
      | none =>
        rw [hn] at hhandler
        cases hhandler
      | some n =>
        rw [hn] at hhandler
        exact ⟨(p, n), List.mem_filter.mpr ⟨(mem_survey ht).mpr hn, hhandler⟩, rfl⟩
  calc t.endpoints
      = listed.length := by rw [endpoints, List.countP_eq_length_filter, List.length_map]
    _ = ps.length := ((List.perm_ext_iff_of_nodup hlisted hps).mpr hmem).length_eq

end CommandTree

end Console
