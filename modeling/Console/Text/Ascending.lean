/-!
# Ascending lists

Lists that ascend by a key, which is a text, so that each key occurs once.

* `insertByKey`: puts a member into such a list; `mem_insertByKey`, `lookup_insertByKey`,
  **`pairwise_insertByKey`**: what is in the list then, and that it still ascends;
* `ascending`: the members of a list of texts, each once, by code point.
-/

namespace Console.Text

section

variable {α : Type} {key : α → String} {x y : α} {ys : List α}

/-- Puts a member into an ascending list, in place of one with the same key. -/
def insertByKey (key : α → String) (x : α) : List α → List α
  | [] => [x]
  | y :: ys =>
    if key x < key y then x :: y :: ys
    else if key x = key y then x :: ys
    else y :: insertByKey key x ys

theorem mem_insertByKey (h : y ∈ insertByKey key x ys) : y = x ∨ y ∈ ys := by
  induction ys with
  | nil => exact .inl (List.mem_singleton.mp h)
  | cons z zs ih =>
    rw [insertByKey] at h
    split at h
    · exact List.mem_cons.mp h
    · split at h
      · exact (List.mem_cons.mp h).imp_right (List.mem_cons_of_mem z)
      · rcases List.mem_cons.mp h with rfl | h
        · exact .inr List.mem_cons_self
        · exact (ih h).imp_right (List.mem_cons_of_mem z)

/-- **An ascending list still ascends.** -/
theorem pairwise_insertByKey (h : ys.Pairwise fun y z => key y < key z) :
    (insertByKey key x ys).Pairwise fun y z => key y < key z := by
  induction ys with
  | nil => exact List.pairwise_singleton _ _
  | cons z zs ih =>
    obtain ⟨hless, hrest⟩ := List.pairwise_cons.mp h
    rw [insertByKey]
    split
    · rename_i hlt
      refine List.pairwise_cons.mpr ⟨fun y hy => ?_, h⟩
      rcases List.mem_cons.mp hy with rfl | hy
      · exact hlt
      · exact String.lt_trans hlt (hless y hy)
    · rename_i hnot
      split
      · rename_i heq
        exact List.pairwise_cons.mpr ⟨fun y hy => heq ▸ hless y hy, hrest⟩
      · rename_i hne
        refine List.pairwise_cons.mpr ⟨fun y hy => ?_, ih hrest⟩
        rcases mem_insertByKey hy with rfl | hy
        · exact String.not_le.mp fun hle => hne (String.le_antisymm hle (String.not_lt.mp hnot))
        · exact hless y hy

end

section

variable {β : Type} {k l : String} {v : β} {entries : List (String × β)}

theorem lookup_cons_eq_ite (i : String × β) :
    (i :: entries).lookup l = if l = i.1 then some i.2 else entries.lookup l := by
  obtain ⟨k, v⟩ := i
  by_cases h : l = k
  · simp [h]
  · simp [List.lookup_cons, h, beq_eq_false_iff_ne.mpr h]

theorem lookup_insertByKey : (insertByKey Prod.fst (k, v) entries).lookup l =
    if l = k then some v else entries.lookup l := by
  induction entries with
  | nil => exact lookup_cons_eq_ite _
  | cons i rest ih =>
    rw [insertByKey]
    split
    · exact lookup_cons_eq_ite _
    · split
      · rename_i heq
        rw [lookup_cons_eq_ite, lookup_cons_eq_ite, ← heq]
        split <;> rfl
      · rename_i hne
        rw [lookup_cons_eq_ite, lookup_cons_eq_ite, ih]
        split
        · rename_i hi
          rw [if_neg fun hk => hne (hk.symm.trans hi)]
        · rfl

end

/-! ## Ascending texts -/

/-- The members of a list, each once, in ascending order. -/
def ascending (ss : List String) : List String := ss.foldr (insertByKey id) []

theorem mem_insertByKey_id {s t : String} {ts : List String} :
    t ∈ insertByKey id s ts ↔ t = s ∨ t ∈ ts := by
  refine ⟨mem_insertByKey, fun h => ?_⟩
  induction ts with
  | nil => exact List.mem_singleton.mpr (h.resolve_right List.not_mem_nil)
  | cons u us ih =>
    rw [insertByKey]
    split
    · exact List.mem_cons.mpr h
    · split
      · rename_i heq
        have heq : s = u := heq
        rw [heq] at h ⊢
        exact List.mem_cons.mpr (h.elim .inl List.mem_cons.mp)
      · rcases h with h | h
        · exact List.mem_cons_of_mem u (ih (.inl h))
        · exact (List.mem_cons.mp h).elim (fun h => h ▸ List.mem_cons_self)
            fun h => List.mem_cons_of_mem u (ih (.inr h))

theorem mem_ascending {t : String} {ss : List String} : t ∈ ascending ss ↔ t ∈ ss := by
  induction ss with
  | nil => exact Iff.rfl
  | cons s ss ih =>
    rw [ascending, List.foldr_cons, mem_insertByKey_id, ← ascending, ih, List.mem_cons]

theorem pairwise_ascending (ss : List String) : (ascending ss).Pairwise (· < ·) := by
  induction ss with
  | nil => exact .nil
  | cons s ss ih => exact pairwise_insertByKey ih

end Console.Text
