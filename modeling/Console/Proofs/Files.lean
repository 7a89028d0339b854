import Console.Files
import Mathlib.Data.List.Basic

/-!
# Reading what was written

A file is put at a place below directories that stay as they are, so that its path leads to it.

* `Item.at?_put`: what was put at a place is there;
* **`Item.isDirectory_put`**: putting a file where no directory is leaves all directories;
* **`Files.read_of_write`**: a file that was written can be read.
-/

namespace Console

/-! ## Items -/

namespace Item

variable {i new : Item} {bytes : List UInt8} {p q : Place}

theorem lookup_replaced (entries : List (String × Item)) (name other : String) (new : Item) :
    ((name, new) :: entries.filter fun e => e.1 != name).lookup other =
      if other = name then some new else entries.lookup other := by
  by_cases hname : other = name
  · rw [if_pos hname, hname, List.lookup_cons_self]
  · rw [if_neg hname, List.lookup_cons, beq_eq_false_iff_ne.mpr hname]
    induction entries with
    | nil => rfl
    | cons e entries ih =>
      rw [List.lookup_cons, List.filter_cons]
      by_cases he : e.1 = name
      · rw [if_neg (by simp [he]), he, beq_eq_false_iff_ne.mpr hname]
        exact ih
      · rw [if_pos (by simp [he]), List.lookup_cons]
        cases other == e.1
        · exact ih
        · rfl

theorem exists_of_at?_cons {name : String} {f : Item → Bool}
    (h : (i.at? (name :: p)).any f = true) :
    ∃ entries sub, i = .directory entries ∧ entries.lookup name = some sub ∧
      (sub.at? p).any f = true := by
  cases i with
  | file bytes => cases h
  | directory entries =>
    rw [at?] at h
    cases hsub : entries.lookup name with
    | none =>
      rw [hsub] at h
      cases h
    | some sub =>
      rw [hsub] at h
      exact ⟨entries, sub, rfl, hsub, h⟩

theorem at?_put (h : (i.at? p.dropLast).any isDirectory = true) :
    (put new p i).at? p = some new := by
  induction p generalizing i with
  | nil => rfl
  | cons name p ih =>
    cases p with
    | nil =>
      cases i with
      | file bytes => cases h
      | directory entries =>
        rw [put, at?, lookup_replaced, if_pos rfl]
        rfl
    | cons next p =>
      obtain ⟨entries, sub, rfl, hsub, hdirectory⟩ := exists_of_at?_cons h
      rw [put, at?, lookup_replaced, if_pos rfl, hsub]
      exact ih hdirectory

/-- **Putting a file where no directory is** leaves all directories. -/
theorem isDirectory_put (hp : (i.at? p).any isDirectory = false)
    (hq : (i.at? q).any isDirectory = true) :
    ((put (.file bytes) p i).at? q).any isDirectory = true := by
  induction p generalizing i q with
  | nil =>
    cases q with
    | nil => exact absurd (hq.symm.trans hp) (by decide)
    | cons name q =>
      obtain ⟨entries, sub, rfl, -⟩ := exists_of_at?_cons hq
      cases hp
  | cons name p ih =>
    cases i with
    | file old => exact hq
    | directory entries =>
      cases q with
      | nil => rfl
      | cons other q =>
        rw [put, at?, lookup_replaced]
        split_ifs with hname
        · subst hname
          obtain ⟨_, sub, ⟨⟩, hsub, hq⟩ := exists_of_at?_cons hq
          rw [at?, hsub] at hp
          rw [hsub]
          exact ih hp hq
        · exact hq

end Item

/-! ## Files -/

namespace Files

variable {fs fs' : Files} {bytes : List UInt8} {place dest : Place} {path : String}

theorem isDirectory_put (hplace : fs.isDirectory place = false) {p : Place}
    (hp : fs.isDirectory p = true) : (fs.put place (.file bytes)).isDirectory p = true :=
  Item.isDirectory_put hplace hp

theorem walk_put (hplace : fs.isDirectory place = false) {p : Place} {parts : List String}
    (h : fs.walk p parts = some dest) : (fs.put place (.file bytes)).walk p parts = some dest := by
  induction parts generalizing p with
  | nil => exact h
  | cons part parts ih =>
    rw [walk] at h ⊢
    split_ifs at h with hcond
    obtain ⟨hdirectory, hname⟩ := Bool.and_eq_true_iff.mp hcond
    rw [if_pos (Bool.and_eq_true_iff.mpr ⟨isDirectory_put hplace hdirectory, hname⟩)]
    exact ih h

theorem place?_put (hplace : fs.isDirectory place = false) (h : fs.place? path = some dest) :
    (fs.put place (.file bytes)).place? path = some dest := by
  rw [place?] at h ⊢
  split_ifs at h ⊢
  exact walk_put hplace h

/-- **A file that was written** can be read. -/
theorem read_of_write (h : fs.write path bytes = some fs') : fs'.read path = .bytes bytes := by
  unfold write at h
  split_ifs at h with hwants
  obtain ⟨place, hplace, hput⟩ := Option.bind_eq_some_iff.mp h
  split_ifs at hput with hcond
  cases hput
  obtain ⟨hnot, habove⟩ := not_or.mp (mt Bool.or_eq_true_iff.mpr hcond)
  rw [Bool.not_eq_true] at hnot
  rw [Bool.not_eq_true', Bool.not_eq_false] at habove
  have hitem : (fs.put place (.file bytes)).item? place = some (.file bytes) := Item.at?_put habove
  rw [read, place?_put hnot hplace, Option.bind_some, hitem]
  exact if_neg hwants

end Files

end Console
