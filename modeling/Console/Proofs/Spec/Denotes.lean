import Console.Proofs.Spec.Selection
import Console.Spec.Path

/-!
# What tokens denote

Tokens denote a sequence of elements when one branch is taken of every alternation and a non-empty
sequence of distinct branches of every permutation, and all that is taken is joined. This is said
here as a relation; the enumeration of the paths is complete and sound for it.

* `Token.Denotes`;
* `denotes_append`, `denotes_group`: joined sequences, and a group in front of a sequence;
* **`mem_paths`**: the paths are the denoted sequences.
-/

namespace Console.Token

/-- Tokens denote a sequence of elements. The branches of a permutation are chosen by their places,
each place at most once. -/
inductive Denotes : List Token → List Element → Prop where
  | nil : Denotes [] []
  | element {ts : List Token} {es : List Element} (e : Element) (rest : Denotes ts es) :
    Denotes (element e :: ts) (e :: es)
  | alternation {branches : List (List Token)} {b ts : List Token} {xs es : List Element}
    (mem : b ∈ branches) (taken : Denotes b xs) (rest : Denotes ts es) :
    Denotes (group .alternation branches :: ts) (xs ++ es)
  | permutation {branches : List (List Token)} {ts : List Token} {xs es : List Element}
    (places : List (Fin branches.length)) (ne : places ≠ []) (distinct : places.Nodup)
    (taken : Denotes (places.map branches.get).flatten xs) (rest : Denotes ts es) :
    Denotes (group .permutation branches :: ts) (xs ++ es)

theorem denotes_nil {es : List Element} : Denotes [] es ↔ es = [] :=
  ⟨fun h => by cases h; rfl, fun h => h ▸ .nil⟩

theorem denotes_element {e : Element} {ts : List Token} {es : List Element} :
    Denotes (element e :: ts) es ↔ ∃ fs, es = e :: fs ∧ Denotes ts fs := by
  constructor
  · intro h
    cases h with
    | element _ rest => exact ⟨_, rfl, rest⟩
  · rintro ⟨fs, rfl, h⟩
    exact .element e h

theorem Denotes.append {ts us : List Token} {xs ys : List Element} (hx : Denotes ts xs)
    (hy : Denotes us ys) : Denotes (ts ++ us) (xs ++ ys) := by
  induction hx with
  | nil => exact hy
  | element e _ ih => exact .element e ih
  | alternation mem taken _ _ ih =>
    rw [List.append_assoc]
    exact .alternation mem taken ih
  | permutation places ne distinct taken _ _ ih =>
    rw [List.append_assoc]
    exact .permutation places ne distinct taken ih

theorem denotes_append {ts us : List Token} {es : List Element} :
    Denotes (ts ++ us) es ↔ ∃ xs ys, es = xs ++ ys ∧ Denotes ts xs ∧ Denotes us ys := by
  constructor
  · intro h
    induction ts generalizing es with
    | nil => exact ⟨[], es, rfl, .nil, h⟩
    | cons t ts ih =>
      cases h with
      | element e rest =>
        obtain ⟨xs, ys, rfl, hx, hy⟩ := ih rest
        exact ⟨e :: xs, ys, rfl, .element e hx, hy⟩
      | alternation mem taken rest =>
        obtain ⟨xs, ys, rfl, hx, hy⟩ := ih rest
        exact ⟨_, ys, (List.append_assoc _ _ _).symm, .alternation mem taken hx, hy⟩
      | permutation places ne distinct taken rest =>
        obtain ⟨xs, ys, rfl, hx, hy⟩ := ih rest
        exact ⟨_, ys, (List.append_assoc _ _ _).symm, .permutation places ne distinct taken hx, hy⟩
  · rintro ⟨xs, ys, rfl, hx, hy⟩
    exact hx.append hy

theorem denotes_group {kind : GroupKind} {branches : List (List Token)} {ts : List Token}
    {es : List Element} :
    Denotes (group kind branches :: ts) es ↔
      ∃ a ∈ arrangements kind branches, Denotes (a ++ ts) es := by
  cases kind with
  | alternation =>
    constructor
    · intro h
      cases h with
      | alternation mem taken rest => exact ⟨_, mem, taken.append rest⟩
    · rintro ⟨b, mem, h⟩
      obtain ⟨xs, ys, rfl, hx, hy⟩ := denotes_append.mp h
      exact .alternation mem hx hy
  | permutation =>
    simp only [arrangements, List.mem_map, Selection.mem_selections]
    constructor
    · intro h
      cases h with
      | permutation places ne distinct taken rest =>
        exact ⟨_, ⟨_, ⟨places, ne, distinct, rfl⟩, rfl⟩, taken.append rest⟩
    · rintro ⟨_, ⟨_, ⟨places, ne, distinct, rfl⟩, rfl⟩, h⟩
      obtain ⟨xs, ys, rfl, hx, hy⟩ := denotes_append.mp h
      exact .permutation places ne distinct hx hy

/-- **The paths of some tokens are the sequences that they denote.** -/
theorem mem_paths {ts : List Token} {es : List Element} : es ∈ paths ts ↔ Denotes ts es := by
  fun_induction paths ts generalizing es with
  | case1 => rw [List.mem_singleton, denotes_nil]
  | case2 e ts ih =>
    rw [List.mem_map, denotes_element]
    constructor
    · rintro ⟨fs, hf, rfl⟩
      exact ⟨fs, rfl, ih.mp hf⟩
    · rintro ⟨fs, rfl, hf⟩
      exact ⟨fs, ih.mpr hf, rfl⟩
  | case3 kind branches ts ih =>
    rw [List.mem_flatMap, denotes_group]
    constructor
    · rintro ⟨a, -, ha⟩
      exact ⟨a.1, a.2, (ih a).mp ha⟩
    · rintro ⟨a, ha, h⟩
      exact ⟨⟨a, ha⟩, List.mem_attach _ _, (ih ⟨a, ha⟩).mpr h⟩

end Console.Token
