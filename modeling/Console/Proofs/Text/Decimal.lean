import Console.Converter
import Mathlib.Data.List.Induction
import Mathlib.Data.Nat.Digits.Defs

/-!
# What decimal texts denote

* `Decimal.Denotes`: a text denotes an integer: digits after at most one sign;
* **`signed?_eq_some`**: reading an integer finds the one that is denoted;
* **`int64?_eq_some`**: so does reading one of 64 bits, if the one that is denoted fits;
* **`denotes_toString`**: an integer is denoted by its decimal text.
-/

namespace Console.Text.Decimal

/-- The digit that a character stands for. -/
def digit (c : Char) : ℕ := c.toNat - '0'.toNat

/-- The value of some digits, the highest first. -/
def value (ds : List Char) : ℕ := Nat.ofDigits 10 (ds.reverse.map digit)

/-- A text denotes an integer: at least one digit, after at most one sign. -/
inductive Denotes : List Char → ℤ → Prop where
  | unsigned {ds : List Char} (ne : ds ≠ []) (digits : ∀ c ∈ ds, c.isDigit = true) :
    Denotes ds (value ds)
  | plus {ds : List Char} (ne : ds ≠ []) (digits : ∀ c ∈ ds, c.isDigit = true) :
    Denotes ('+' :: ds) (value ds)
  | minus {ds : List Char} (ne : ds ≠ []) (digits : ∀ c ∈ ds, c.isDigit = true) :
    Denotes ('-' :: ds) (-value ds)

theorem ofDigits_eq_value (ds : List Char) : ofDigits ds = value ds := by
  induction ds using List.reverseRecOn with
  | nil => rfl
  | append_singleton ds d ih =>
    have hread : ofDigits (ds ++ [d]) = 10 * ofDigits ds + digit d := by
      rw [ofDigits, List.foldl_append]
      rfl
    have hvalue : value (ds ++ [d]) = digit d + 10 * value ds := by
      rw [value, List.reverse_append, List.reverse_singleton, List.singleton_append, List.map_cons,
        Nat.ofDigits_cons]
      rfl
    rw [hread, ih, hvalue, Nat.add_comm]

theorem natural?_eq_some {ds : List Char} {n : ℕ} :
    natural? ds = some n ↔ ds ≠ [] ∧ (∀ c ∈ ds, c.isDigit = true) ∧ n = value ds := by
  unfold natural?
  rw [ofDigits_eq_value]
  by_cases hne : ds = []
  · simp [hne]
  · by_cases hall : ds.all Char.isDigit = true
    · rw [if_neg (by simp [hne, hall])]
      rw [List.all_eq_true] at hall
      exact ⟨fun h => ⟨hne, hall, (Option.some.inj h).symm⟩, fun h => congrArg some h.2.2.symm⟩
    · rw [if_pos (by simp [hall])]
      rw [List.all_eq_true] at hall
      exact ⟨fun h => (by cases h), fun h => absurd h.2.1 hall⟩

theorem ne_sign {c : Char} (h : c.isDigit = true) : c ≠ '+' ∧ c ≠ '-' := by
  constructor
  · rintro rfl
    exact absurd h (by decide)
  · rintro rfl
    exact absurd h (by decide)

theorem signed?_of_isDigit {c : Char} {cs : List Char} (h : c.isDigit = true) :
    signed? (c :: cs) = (natural? (c :: cs)).map Int.ofNat := by
  obtain ⟨hplus, hminus⟩ := ne_sign h
  unfold signed?
  split
  · rename_i heq
    exact absurd (List.cons.inj heq).1 hplus
  · rename_i heq
    exact absurd (List.cons.inj heq).1 hminus
  · rfl

/-- **Reading an integer finds the one that is denoted.** -/
theorem signed?_eq_some {cs : List Char} {n : ℤ} : signed? cs = some n ↔ Denotes cs n := by
  constructor
  · intro h
    unfold signed? at h
    split at h
    · obtain ⟨m, hm, rfl⟩ := Option.map_eq_some_iff.mp h
      obtain ⟨hne, hdigits, rfl⟩ := natural?_eq_some.mp hm
      exact .plus hne hdigits
    · obtain ⟨m, hm, rfl⟩ := Option.map_eq_some_iff.mp h
      obtain ⟨hne, hdigits, rfl⟩ := natural?_eq_some.mp hm
      exact .minus hne hdigits
    · obtain ⟨m, hm, rfl⟩ := Option.map_eq_some_iff.mp h
      obtain ⟨hne, hdigits, rfl⟩ := natural?_eq_some.mp hm
      exact .unsigned hne hdigits
  · intro h
    cases h with
    | @unsigned ds hne hdigits =>
      have hread := natural?_eq_some.mpr ⟨hne, hdigits, rfl⟩
      cases cs with
      | nil => exact absurd rfl hne
      | cons c cs =>
        rw [signed?_of_isDigit (hdigits c List.mem_cons_self), hread]
        rfl
    | plus hne hdigits =>
      have hread := natural?_eq_some.mpr ⟨hne, hdigits, rfl⟩
      rw [signed?, hread]
      rfl
    | minus hne hdigits =>
      have hread := natural?_eq_some.mpr ⟨hne, hdigits, rfl⟩
      rw [signed?, hread]
      rfl

theorem Denotes.unique {cs : List Char} {m n : ℤ} (hm : Denotes cs m) (hn : Denotes cs n) : m = n :=
  Option.some.inj ((signed?_eq_some.mpr hm).symm.trans (signed?_eq_some.mpr hn))

theorem Denotes.exists_head {cs : List Char} {n : ℤ} (h : Denotes cs n) :
    ∃ c rest, cs = c :: rest ∧ (c.isDigit = true ∨ c = '+' ∨ c = '-') := by
  cases h with
  | unsigned ne digits =>
    obtain ⟨c, rest, rfl⟩ := List.exists_cons_of_ne_nil ne
    exact ⟨c, rest, rfl, .inl (digits c List.mem_cons_self)⟩
  | plus => exact ⟨_, _, rfl, .inr (.inl rfl)⟩
  | minus => exact ⟨_, _, rfl, .inr (.inr rfl)⟩

theorem toInt_ofInt_of_fits {m : ℤ} (h : Fits m) : (Int64.ofInt m).toInt = m := by
  have hmin : Int64.minValue.toInt = -2 ^ 63 := Int64.toInt_minValue
  have hmax : Int64.maxValue.toInt = 2 ^ 63 - 1 := Int64.toInt_maxValue
  refine Int64.toInt_ofInt_of_le ?_ ?_
  · exact hmin ▸ h.1
  · have := h.2
    omega

theorem fits_toInt (n : Int64) : Fits n.toInt := ⟨n.minValue_le_toInt, n.toInt_le⟩

theorem bounded?_eq_some {m : ℤ} {n : Int64} : bounded? m = some n ↔ m = n.toInt := by
  unfold bounded?
  by_cases hfits : Fits m
  · rw [if_pos hfits, Option.some.injEq, ← Int64.toInt_inj, toInt_ofInt_of_fits hfits]
  · rw [if_neg hfits]
    refine ⟨fun h => (by cases h), ?_⟩
    rintro rfl
    exact absurd (fits_toInt n) hfits

/-- **Reading an integer of 64 bits finds the one that is denoted, if it fits.** -/
theorem int64?_eq_some {cs : List Char} {n : Int64} : int64? cs = some n ↔ Denotes cs n.toInt := by
  rw [int64?, Option.bind_eq_some_iff, ← signed?_eq_some]
  constructor
  · rintro ⟨m, hm, hn⟩
    rw [hm, bounded?_eq_some.mp hn]
  · exact fun h => ⟨n.toInt, h, bounded?_eq_some.mpr rfl⟩

/-! ## The decimal text of an integer -/

theorem value_toDigits (n : ℕ) : value (Nat.toDigits 10 n) = n := by
  rw [← ofDigits_eq_value, ofDigits, ← Nat.ofDigitChars_eq_foldl]
  exact Nat.ofDigitChars_ten_toDigits

theorem isDigit_of_mem_toDigits {n : ℕ} {c : Char} (h : c ∈ Nat.toDigits 10 n) :
    c.isDigit = true :=
  Nat.isDigit_of_mem_toDigits (by decide) (by decide) h

theorem toList_toString_natCast (n : ℕ) : (toString (n : ℤ)).toList = Nat.toDigits 10 n :=
  Nat.toList_repr

theorem toList_toString_negSucc (n : ℕ) :
    (toString (Int.negSucc n)).toList = '-' :: Nat.toDigits 10 (n + 1) := by
  have happend : (toString (Int.negSucc n)).toList = "-".toList ++ (Nat.repr (n + 1)).toList :=
    String.toList_append
  rw [happend, Nat.toList_repr]
  rfl

/-- **An integer is denoted by its decimal text.** -/
theorem denotes_toString : ∀ n : ℤ, Denotes (toString n).toList n
  | .ofNat n => by
    have hdenotes := Denotes.unsigned Nat.toDigits_ne_nil fun _ => isDigit_of_mem_toDigits (n := n)
    rw [value_toDigits] at hdenotes
    exact (toList_toString_natCast n).symm ▸ hdenotes
  | .negSucc n => by
    have hdenotes := Denotes.minus Nat.toDigits_ne_nil fun _ =>
      isDigit_of_mem_toDigits (n := n + 1)
    rw [value_toDigits] at hdenotes
    exact (toList_toString_negSucc n).symm ▸ hdenotes

end Console.Text.Decimal
