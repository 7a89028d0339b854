import Console.Proofs.Tree.Walk

/-!
# The keywords of typed places, and the integers that they take

* `IsBound`, `bound?_eq_some`: the bounds of a range;
* `range?_eq_some`: how a range is written;
* **`resolve_eq_iff`**: which keywords name a variable, which a range, and which nothing;
* `apply_range_of_denotes`: the fragments that denote some integer;
* **`apply_range_iff`**: which fragments a range takes, and as which integers.
-/

namespace Console.Converter

open Text

/-! ## The converter that a keyword names -/

/-- A non-empty run of digits for a number that fits in 64 bits with a sign. -/
structure IsBound (ds : List Char) : Prop where
  ne_nil : ds ≠ []
  digits : ∀ c ∈ ds, c.isDigit = true
  value_le : Decimal.value ds ≤ 2 ^ 63 - 1

/-- The keyword is written in capital letters. -/
def IsCapitals (keyword : String) : Prop :=
  keyword ≠ "" ∧ ∀ c ∈ keyword.toList, 'A' ≤ c ∧ c ≤ 'Z'

/-- A range from one text to another, as it is written. -/
def rangeText (a b : String) : String := "<" ++ a ++ "-" ++ b ++ ">"

variable {keyword fragment : String} {as bs cs ds : List Char} {c : Converter}
  {n first last : Int64}

theorem bound?_eq_some : bound? ds = some n ↔ IsBound ds ∧ n.toInt = Decimal.value ds := by
  rw [bound?, Option.bind_eq_some_iff]
  constructor
  · rintro ⟨m, hm, hn⟩
    obtain ⟨hne, hdigits, rfl⟩ := Decimal.natural?_eq_some.mp hm
    have hvalue : n.toInt = Decimal.value ds := (Decimal.bounded?_eq_some.mp hn).symm
    have hle := n.toInt_le
    have hmax : Int64.maxValue.toInt = 2 ^ 63 - 1 := Int64.toInt_maxValue
    exact ⟨⟨hne, hdigits, by omega⟩, hvalue⟩
  · rintro ⟨h, hvalue⟩
    exact ⟨Decimal.value ds, Decimal.natural?_eq_some.mpr ⟨h.ne_nil, h.digits, rfl⟩,
      Decimal.bounded?_eq_some.mpr hvalue.symm⟩

theorem IsBound.exists_toInt (h : IsBound ds) : ∃ n : Int64, n.toInt = Decimal.value ds := by
  have hmin : Int64.minValue.toInt = -2 ^ 63 := Int64.toInt_minValue
  have hmax : Int64.maxValue.toInt = 2 ^ 63 - 1 := Int64.toInt_maxValue
  have hle := h.value_le
  exact ⟨_, Decimal.toInt_ofInt_of_fits ⟨by omega, by omega⟩⟩

theorem IsBound.dash_notMem (h : IsBound ds) : '-' ∉ ds := fun hmem =>
  (Decimal.ne_sign (h.digits '-' hmem)).2 rfl

/-- **A range is written** with its two bounds around the first dash. -/
theorem range?_eq_some : range? cs = some c ↔ ∃ (as bs : List Char) (first last : Int64),
    cs = '<' :: (as ++ '-' :: bs ++ ['>']) ∧ IsBound as ∧ IsBound bs ∧
      first.toInt = Decimal.value as ∧ last.toInt = Decimal.value bs ∧ c = range first last := by
  constructor
  · intro h
    unfold range? at h
    split at h
    · rename_i cs
      split_ifs at h with hclose
      have hinner : cs = cs.dropLast ++ ['>'] := (List.dropLast_append_getLast? _ hclose).symm
      dsimp only at h
      split at h
      · rename_i rest hdash
        obtain ⟨first, hfirst, h⟩ := Option.bind_eq_some_iff.mp h
        obtain ⟨last, hlast, h⟩ := Option.bind_eq_some_iff.mp h
        obtain ⟨hboundFirst, hfirst⟩ := bound?_eq_some.mp hfirst
        obtain ⟨hboundLast, hlast⟩ := bound?_eq_some.mp hlast
        refine ⟨_, rest, first, last, ?_, hboundFirst, hboundLast, hfirst, hlast,
          (Option.some.inj h).symm⟩
        rw [← hdash, List.takeWhile_append_dropWhile, ← hinner]
      · cases h
    · cases h
  · rintro ⟨as, bs, first, last, rfl, has, hbs, hfirst, hlast, rfl⟩
    have hdash : ∀ c ∈ as, (c != '-') = true := fun c hc =>
      bne_iff_ne.mpr (ne_of_mem_of_not_mem hc has.dash_notMem)
    have htake : (as ++ '-' :: bs).takeWhile (· != '-') = as := by
      rw [List.takeWhile_append_of_pos hdash, List.takeWhile_cons_of_neg (by decide),
        List.append_nil]
    have hdrop : (as ++ '-' :: bs).dropWhile (· != '-') = '-' :: bs := by
      rw [List.dropWhile_append_of_pos hdash, List.dropWhile_cons_of_neg (by decide)]
    have hread : bound? as = some first ∧ bound? bs = some last :=
      ⟨bound?_eq_some.mpr ⟨has, hfirst⟩, bound?_eq_some.mpr ⟨hbs, hlast⟩⟩
    simp only [range?]
    rw [if_pos List.getLast?_concat, List.dropLast_concat, htake, hdrop]
    simp only [hread, Option.bind_eq_bind, Option.bind_some, Option.pure_def]

theorem isCapitals_iff :
    IsCapitals keyword ↔ (!keyword.toList.isEmpty && keyword.toList.all isCapital) = true := by
  simp [IsCapitals, isCapital]

theorem resolve_of_isCapitals (h : IsCapitals keyword) : resolve keyword = some .variable :=
  if_pos (isCapitals_iff.mp h)

theorem resolve_of_not_isCapitals (h : ¬ IsCapitals keyword) :
    resolve keyword = range? keyword.toList :=
  if_neg (mt isCapitals_iff.mpr h)

theorem toList_rangeText (a b : String) :
    (rangeText a b).toList = '<' :: (a.toList ++ '-' :: b.toList ++ ['>']) := by
  simp [rangeText]

theorem not_isCapitals_rangeText {a b : String} : ¬ IsCapitals (rangeText a b) := by
  intro h
  rw [IsCapitals, toList_rangeText] at h
  exact absurd (h.2 '<' List.mem_cons_self) (by decide)

theorem resolve_eq_range : resolve keyword = some (.range first last) ↔ ∃ a b,
    keyword = rangeText a b ∧ IsBound a.toList ∧ IsBound b.toList ∧
      first.toInt = Decimal.value a.toList ∧ last.toInt = Decimal.value b.toList := by
  constructor
  · intro h
    by_cases hcapitals : IsCapitals keyword
    · rw [resolve_of_isCapitals hcapitals] at h
      cases h
    · rw [resolve_of_not_isCapitals hcapitals, range?_eq_some] at h
      obtain ⟨as, bs, first', last', hcs, has, hbs, hfirst, hlast, heq⟩ := h
      cases heq
      refine ⟨String.ofList as, String.ofList bs, ?_, ?_⟩
      · rw [← String.toList_inj, toList_rangeText, String.toList_ofList, String.toList_ofList, hcs]
      · simp only [String.toList_ofList]
        exact ⟨has, hbs, hfirst, hlast⟩
  · rintro ⟨a, b, rfl, ha, hb, hfirst, hlast⟩
    rw [resolve_of_not_isCapitals not_isCapitals_rangeText, range?_eq_some]
    exact ⟨_, _, first, last, toList_rangeText a b, ha, hb, hfirst, hlast, rfl⟩

theorem resolve_rangeText_eq_none {a b : String} :
    resolve (rangeText a b) = none ↔ ¬ (IsBound a.toList ∧ IsBound b.toList) := by
  constructor
  · rintro hnone ⟨ha, hb⟩
    obtain ⟨first, hfirst⟩ := ha.exists_toInt
    obtain ⟨last, hlast⟩ := hb.exists_toInt
    rw [resolve_eq_range.mpr ⟨a, b, rfl, ha, hb, hfirst, hlast⟩] at hnone
    cases hnone
  · intro hbounds
    rw [resolve_of_not_isCapitals not_isCapitals_rangeText, Option.eq_none_iff_forall_ne_some]
    intro c hc
    obtain ⟨as, bs, -, -, hcs, has, hbs, -⟩ := range?_eq_some.mp hc
    rw [toList_rangeText, List.cons.injEq] at hcs
    have hparts : as ++ '-' :: bs = a.toList ++ '-' :: b.toList :=
      List.append_cancel_right hcs.2.symm
    obtain ⟨ha, -, hb⟩ := (List.append_cons_inj_of_notMem has.dash_notMem hbs.dash_notMem).mp hparts
    exact hbounds ⟨ha ▸ has, hb ▸ hbs⟩

theorem resolve_eq_variable : resolve keyword = some .variable ↔ IsCapitals keyword := by
  refine ⟨fun h => ?_, resolve_of_isCapitals⟩
  by_contra hcapitals
  rw [resolve_of_not_isCapitals hcapitals, range?_eq_some] at h
  obtain ⟨as, bs, first, last, -, -, -, -, -, heq⟩ := h
  cases heq

theorem resolve_eq_none : resolve keyword = none ↔ ¬ IsCapitals keyword ∧
    ¬ ∃ a b, keyword = rangeText a b ∧ IsBound a.toList ∧ IsBound b.toList := by
  constructor
  · intro hnone
    refine ⟨fun hcapitals => ?_, ?_⟩
    · rw [resolve_of_isCapitals hcapitals] at hnone
      cases hnone
    · rintro ⟨a, b, rfl, hbounds⟩
      exact resolve_rangeText_eq_none.mp hnone hbounds
  · rintro ⟨hcapitals, hrange⟩
    rw [Option.eq_none_iff_forall_ne_some]
    rintro (_ | ⟨first, last⟩) hc
    · exact hcapitals (resolve_eq_variable.mp hc)
    · obtain ⟨a, b, hkeyword, ha, hb, -⟩ := resolve_eq_range.mp hc
      exact hrange ⟨a, b, hkeyword, ha, hb⟩

theorem not_isBound_iff {a : String} : ¬ IsBound a.toList ↔
    a = "" ∨ (∃ c ∈ a.toList, c.isDigit = false) ∨ 2 ^ 63 ≤ Decimal.value a.toList := by
  have hbound : IsBound a.toList ↔
      a ≠ "" ∧ (∀ c ∈ a.toList, c.isDigit = true) ∧ Decimal.value a.toList < 2 ^ 63 :=
    ⟨fun h => ⟨mt String.toList_eq_nil_iff.mpr h.ne_nil, h.digits, by have := h.value_le; omega⟩,
      fun ⟨hne, hdigits, hlt⟩ => ⟨mt String.toList_eq_nil_iff.mp hne, hdigits, by omega⟩⟩
  rw [hbound]
  by_cases ha : a = "" <;> simp [ha, or_iff_not_imp_left]

/-- **What keywords name.** A keyword names a variable if and only if it is written in capital
letters, and a range if and only if it is written as one, with two bounds, which goes from the
number of the one to that of the other. Any other keyword names nothing, such as one with a bound
that is empty, has a sign or does not fit. -/
theorem resolve_eq_iff :
    (∀ keyword, resolve keyword = some .variable ↔ IsCapitals keyword) ∧
      (∀ keyword first last, resolve keyword = some (.range first last) ↔ ∃ a b,
        keyword = rangeText a b ∧ IsBound a.toList ∧ IsBound b.toList ∧
          first.toInt = Decimal.value a.toList ∧ last.toInt = Decimal.value b.toList) ∧
      (∀ keyword, resolve keyword = none ↔ ¬ IsCapitals keyword ∧
        ¬ ∃ a b, keyword = rangeText a b ∧ IsBound a.toList ∧ IsBound b.toList) ∧
      ∀ a b, resolve (rangeText a b) = none ↔ ∃ s ∈ [a, b],
        s = "" ∨ (∃ c ∈ s.toList, c.isDigit = false) ∨ 2 ^ 63 ≤ Decimal.value s.toList := by
  refine ⟨fun _ => resolve_eq_variable, fun _ _ _ => resolve_eq_range, fun _ => resolve_eq_none,
    fun a b => ?_⟩
  simp only [resolve_rangeText_eq_none, not_and_or, not_isBound_iff, List.mem_cons,
    List.not_mem_nil, or_false, exists_eq_or_imp, exists_eq_left]

/-- Leading zeros are no part of a bound, and the order of the bounds does not matter. -/
example : resolve "<007-9223372036854775807>" = some (.range 7 Int64.maxValue) ∧
    resolve "<5-1>" = some (.range 5 1) ∧ resolve "<0-9223372036854775808>" = none ∧
    resolve "<-1-5>" = none ∧ resolve "<1-2-3>" = none ∧ resolve "<1->" = none := by
  decide +kernel

/-! ## The integers that a range takes -/

/-- **A fragment that denotes an integer,** of any size, is taken if this is between the bounds. -/
theorem apply_range_of_denotes {m : ℤ} (h : Decimal.Denotes fragment.toList m) :
    (range first last).apply fragment =
      if first.toInt ≤ m ∧ m ≤ last.toInt then some (.integer (.ofInt m)) else none := by
  split_ifs with hbounds
  · have hfits : Decimal.Fits m :=
      ⟨first.minValue_le_toInt.trans hbounds.1, hbounds.2.trans last.toInt_le⟩
    have hm : (Int64.ofInt m).toInt = m := Decimal.toInt_ofInt_of_fits hfits
    refine apply_eq_some.mpr ⟨.ofInt m, rfl, hm.symm ▸ h, ?_⟩
    rw [Int64.le_iff_toInt_le, Int64.le_iff_toInt_le, hm]
    exact hbounds
  · rw [Option.eq_none_iff_forall_ne_some]
    intro v hv
    obtain ⟨n, rfl, hn, hfirst, hlast⟩ := apply_eq_some.mp hv
    obtain rfl := h.unique hn
    exact hbounds ⟨Int64.le_iff_toInt_le.mp hfirst, Int64.le_iff_toInt_le.mp hlast⟩

/-- **The fragments that a range takes** are those that denote an integer between its bounds, in
digits after at most one sign. The value of one is this integer. Nothing depends on the number of
digits: an integer of any size is refused where it is not between the bounds, and so is its decimal
text. The text of a value that has been taken has this value again. -/
theorem apply_range_iff (first last : Int64) :
    (∀ fragment v, (range first last).apply fragment = some v ↔ ∃ n : Int64, v = .integer n ∧
        Decimal.Denotes fragment.toList n.toInt ∧ first.toInt ≤ n.toInt ∧ n.toInt ≤ last.toInt) ∧
      (∀ fragment m, Decimal.Denotes fragment.toList m → (range first last).apply fragment =
        if first.toInt ≤ m ∧ m ≤ last.toInt then some (.integer (.ofInt m)) else none) ∧
      (∀ m : ℤ, ((range first last).apply (toString m)).isSome = true ↔
        first.toInt ≤ m ∧ m ≤ last.toInt) ∧
      ∀ fragment v, (range first last).apply fragment = some v →
        (range first last).apply v.text = some v := by
  have htaken (fragment : String) (v : Value) : (range first last).apply fragment = some v ↔
      ∃ n : Int64, v = .integer n ∧ Decimal.Denotes fragment.toList n.toInt ∧
        first.toInt ≤ n.toInt ∧ n.toInt ≤ last.toInt := by
    simp only [apply_eq_some, Delivers, Int64.le_iff_toInt_le]
  refine ⟨htaken, fun _ _ => apply_range_of_denotes, fun m => ?_, fun fragment v hv => ?_⟩
  · rw [apply_range_of_denotes (Decimal.denotes_toString m)]
    split_ifs with hbounds <;> simp [hbounds]
  · obtain ⟨n, rfl, -, hbounds⟩ := (htaken fragment v).mp hv
    exact (htaken _ _).mpr ⟨n, rfl, Decimal.denotes_toString n.toInt, hbounds⟩

/-- At the lowest bound there is, with a sign and a zero in front; and an integer that would be
between the bounds if it were cut to 64 bits. -/
theorem apply_range_iff_lowest :
    let c := range Int64.minValue 7
    c.apply "-09223372036854775808" = some (.integer Int64.minValue) ∧
      c.apply (Value.integer Int64.minValue).text = some (.integer Int64.minValue) ∧
      Decimal.Denotes "18446744073709551620".toList (2 ^ 64 + 4) ∧
      c.apply "18446744073709551620" = none := by
  intro c
  obtain ⟨-, hdenoted, -, hagain⟩ := apply_range_iff Int64.minValue 7
  have hlowest : c.apply "-09223372036854775808" = some (.integer Int64.minValue) := by
    decide +kernel
  have hdenotes : Decimal.Denotes "18446744073709551620".toList (2 ^ 64 + 4) :=
    Decimal.signed?_eq_some.mp (by decide +kernel)
  have hout : ¬ (Int64.minValue.toInt ≤ 2 ^ 64 + 4 ∧ 2 ^ 64 + 4 ≤ Int64.toInt 7) := by decide
  exact ⟨hlowest, hagain _ _ hlowest, hdenotes, (hdenoted _ _ hdenotes).trans (if_neg hout)⟩

end Console.Converter
