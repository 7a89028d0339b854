import Console.Proofs.LineEditor
import Mathlib.Data.String.Basic

/-!
# The longest common prefix

The longest text with which some texts begin can be cut out of the first of them, at a place that is
counted in bytes. Each of the other texts agrees with the first one up to some byte, which ends a
character of the first text, and the least of these bytes is the place to cut.

* `charIndices`, `agreedBytes`, `sharedBytes`: the place to cut;
* **`agreedBytes_eq`**, **`sharedBytes_eq`**: it is behind the longest common prefix;
* `exists_pos_of_prefix`: a text can be cut behind any of its prefixes;
* **`commonPrefix_greatest`**: what is cut out is the greatest common prefix, whatever the order of
  the texts.
-/

namespace Console

open String (utf8Len)

/-! ## Where to cut -/

/-- Some characters, each with the number of bytes before it; `start` are before all of them. -/
def charIndices (start : ℕ) : List Char → List (ℕ × Char)
  | [] => []
  | c :: cs => (start, c) :: charIndices (start + c.utf8Size) cs

/-- The byte at which the characters of the first text end that the second text has too. -/
def agreedBytes (s t : String) : ℕ :=
  (((charIndices 0 s.toList).zip t.toList).takeWhile fun p => p.1.2 == p.2).getLast?.elim 0
    fun p => p.1.1 + p.1.2.utf8Size

/-- The byte up to which all other texts agree with the first one, the least so far being kept. -/
def sharedBytes (s : String) (ts : List String) : ℕ :=
  ts.foldl (fun bytes t => min (agreedBytes s t) bytes) s.utf8ByteSize

/-! ## Prefixes of two texts -/

theorem eq_of_prefixes {as bs : List Char} (h : ∀ p, p <+: as ↔ p <+: bs) : as = bs :=
  ((h as).mp List.prefix_rfl).eq_of_length_le ((h bs).mpr List.prefix_rfl).length_le

/-- The last of the characters with which both texts begin ends where their common prefix does. This
is by induction on these characters, each of which moves the start on. -/
theorem getLast?_agreeing (start : ℕ) (as bs : List Char) :
    ((((charIndices start as).zip bs).takeWhile fun p => p.1.2 == p.2).getLast?.elim start
      fun p => p.1.1 + p.1.2.utf8Size) = start + utf8Len (sharedPrefix as bs) := by
  fun_induction sharedPrefix as bs generalizing start with
  | case1 as c bs ih =>
    rw [charIndices, List.zip_cons_cons, List.takeWhile_cons_of_pos (by simp), List.getLast?_cons,
      Option.elim_some, String.utf8Len_cons, Nat.add_comm (utf8Len _), ← Nat.add_assoc, ← ih]
    cases (((charIndices (start + c.utf8Size) as).zip bs).takeWhile
      fun p => p.1.2 == p.2).getLast? <;> rfl
  | case2 a as b bs hne =>
    rw [charIndices, List.zip_cons_cons, List.takeWhile_cons_of_neg (by simpa using hne)]
    rfl
  | case3 as bs h =>
    have hzip : (charIndices start as).zip bs = [] := by
      cases as with
      | nil => rfl
      | cons a as =>
        cases bs with
        | nil => rfl
        | cons b bs => exact absurd rfl (h a as b bs rfl)
    rw [hzip]
    rfl

/-- **Two texts agree up to the end of their longest common prefix.** -/
theorem agreedBytes_eq (s t : String) :
    agreedBytes s t = utf8Len (sharedPrefix s.toList t.toList) := by
  rw [agreedBytes, getLast?_agreeing, Nat.zero_add]

theorem min_utf8Len_sharedPrefix {p as : List Char} (h : p <+: as) (bs : List Char) :
    min (utf8Len (sharedPrefix as bs)) (utf8Len p) = utf8Len (sharedPrefix p bs) := by
  obtain ⟨hshared, hother⟩ := prefix_sharedPrefix.mp (List.prefix_refl (sharedPrefix as bs))
  -- Of two prefixes of one text, one begins the other.
  rcases List.prefix_or_prefix_of_prefix hshared h with hle | hle
  · have heq : sharedPrefix p bs = sharedPrefix as bs := eq_of_prefixes fun q => by
      rw [prefix_sharedPrefix]
      exact ⟨fun hq => prefix_sharedPrefix.mpr ⟨hq.1.trans h, hq.2⟩,
        fun hq => ⟨hq.trans hle, hq.trans hother⟩⟩
    rw [heq, min_eq_left (String.utf8Len_le_of_prefix hle)]
  · have heq : sharedPrefix p bs = p := eq_of_prefixes fun q => by
      rw [prefix_sharedPrefix]
      exact ⟨And.left, fun hq => ⟨hq, hq.trans (hle.trans hother)⟩⟩
    rw [heq, min_eq_right (String.utf8Len_le_of_prefix hle)]

theorem foldl_agreedBytes (s : String) (ts : List String) {p : List Char} (h : p <+: s.toList) :
    ts.foldl (fun bytes t => min (agreedBytes s t) bytes) (utf8Len p) =
      utf8Len ((ts.map String.toList).foldl sharedPrefix p) := by
  induction ts generalizing p with
  | nil => rfl
  | cons t ts ih =>
    have hshared := (prefix_sharedPrefix.mp (List.prefix_refl (sharedPrefix p t.toList))).1
    rw [List.foldl_cons, agreedBytes_eq, min_utf8Len_sharedPrefix h, ih (hshared.trans h)]
    rfl

/-- **All texts agree up to the end of their longest common prefix.** -/
theorem sharedBytes_eq (s : String) (ts : List String) :
    sharedBytes s ts = utf8Len (commonPrefix (s :: ts)).toList := by
  rw [sharedBytes, ← String.utf8Len_toList, foldl_agreedBytes s ts List.prefix_rfl, commonPrefix,
    String.toList_ofList]

/-! ## The text that is cut out -/

theorem exists_pos_of_prefix {s t : String} (h : t.toList <+: s.toList) :
    ∃ pos : s.Pos, pos.offset.byteIdx = utf8Len t.toList ∧ (s.sliceTo pos).copy = t := by
  obtain ⟨rest, hrest⟩ := h
  have hs : s = t ++ String.ofList rest := by
    rw [← String.toList_inj, String.toList_append, String.toList_ofList, hrest]
  have hvalid : t.rawEndPos.IsValid s :=
    String.Pos.Raw.isValid_iff_exists_append.mpr ⟨t, _, hs, rfl⟩
  have hsplits : (⟨t.rawEndPos, hvalid⟩ : s.Pos).Splits t (String.ofList rest) := ⟨hs, rfl⟩
  refine ⟨_, ?_, (String.Pos.splits _).eq_left hsplits⟩
  exact (String.utf8Len_toList t).symm

/-- **The order of the texts does not matter,** since a text is known by its prefixes. -/
theorem commonPrefix_perm {ss ts : List String} (h : ss.Perm ts) :
    commonPrefix ss = commonPrefix ts := by
  cases ss with
  | nil => rw [List.nil_perm.mp h]
  | cons s ss =>
    have hne : ts ≠ [] := by
      rintro rfl
      cases List.perm_nil.mp h
    refine String.toList_inj.mp (eq_of_prefixes fun p => ?_)
    rw [prefix_commonPrefix (List.cons_ne_nil s ss), prefix_commonPrefix hne]
    simp only [h.mem_iff]

/-- **The greatest common prefix.** The byte up to which all texts agree with the first one ends a
character of it, and what is before this byte is the common prefix. It begins all the texts, every
text that begins all of them begins it, and it is the same in whatever order the texts are given. -/
theorem commonPrefix_greatest (s : String) (ts : List String) :
    (∃ pos : s.Pos, pos.offset.byteIdx = sharedBytes s ts ∧
        (s.sliceTo pos).copy = commonPrefix (s :: ts)) ∧
      (∀ t ∈ s :: ts, (commonPrefix (s :: ts)).toList <+: t.toList) ∧
      (∀ p : String, (∀ t ∈ s :: ts, p.toList <+: t.toList) →
        p.toList <+: (commonPrefix (s :: ts)).toList) ∧
      ∀ us, us.Perm (s :: ts) → commonPrefix us = commonPrefix (s :: ts) := by
  have hbegins := (prefix_commonPrefix (List.cons_ne_nil s ts)).mp List.prefix_rfl
  refine ⟨?_, hbegins, fun p => (prefix_commonPrefix (List.cons_ne_nil s ts)).mpr,
    fun us => commonPrefix_perm⟩
  rw [sharedBytes_eq]
  exact exists_pos_of_prefix (hbegins s List.mem_cons_self)

/-- Characters may share their first byte: they are not cut. -/
theorem commonPrefix_greatest_accents :
    let texts := ["aéx", "aèx", "aé"]
    (∀ t ∈ texts, "a".toList <+: t.toList) ∧ texts.reverse.Perm texts ∧
      "a".toList <+: (commonPrefix texts).toList ∧ commonPrefix texts.reverse = "a" ∧
      sharedBytes "aéx" ["aèx", "aé"] = 1 := by
  intro texts
  have hbegins : ∀ t ∈ texts, "a".toList <+: t.toList := by decide +kernel
  obtain ⟨-, -, hgreatest, horder⟩ := commonPrefix_greatest "aéx" ["aèx", "aé"]
  refine ⟨hbegins, List.reverse_perm texts, hgreatest "a" hbegins, ?_, by decide +kernel⟩
  rw [horder _ (List.reverse_perm texts)]
  decide +kernel

end Console
