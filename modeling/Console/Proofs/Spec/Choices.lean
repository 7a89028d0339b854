import Console.Proofs.Spec.RoundTrip

/-!
# Choices of branches

A specification denotes a path by a choice of branches. Each choice takes elements, some of which
stand in a group, and designates as arguments the words of those and of the typed places. Choices
may begin with the same keywords; of those, the first in the order of the paths goes ahead of the
others.

* `Token.Taken`, `Token.choices`: the choices, with what they take;
* **`paths_eq_map_choices`**: the paths are the elements of the choices, one for one;
* **`isArgument_of_mem_choices`**: a compiled element is marked as an argument just where it is
  designated;
* `Token.designated`: the arguments that a choice designates;
* `Token.firstAt`, `Token.handed`: the first choice that begins with some keywords, and the
  arguments that the first choices designate along a path;
* **`handed_eq_designated`**: where no earlier choice says otherwise, these are the same.
-/

namespace Console.Token

/-- An element that a choice of branches takes. -/
structure Taken where
  element : Element
  /-- It stands in a group. -/
  inGroup : Bool
  deriving DecidableEq

namespace Taken

/-- What an element is known by. -/
def keyword (x : Taken) : String := x.element.keyword

/-- The word of the element is an argument: the element stands in a group or is a typed place. -/
def isArgument (x : Taken) : Bool := x.inGroup || x.element.converter.isSome

end Taken

/-- The choices of branches that tokens offer, the choice at the leftmost group varying slowest. -/
def choices : List Token → List (List Taken)
  | [] => [[]]
  | element e :: ts => (choices ts).map (⟨e, false⟩ :: ·)
  | group kind branches :: ts =>
    (arrangements kind branches).flatMap fun a => (paths a).flatMap fun es =>
      (choices ts).map (es.map (⟨·, true⟩) ++ ·)

/-! ## Choices and paths -/

theorem paths_append (ts us : List Token) :
    paths (ts ++ us) = (paths ts).flatMap fun es => (paths us).map (es ++ ·) := by
  fun_induction paths ts with
  | case1 => simp
  | case2 e ts ih =>
    rw [List.cons_append, paths, ih, List.map_flatMap, List.flatMap_map]
    simp only [List.map_map]
    rfl
  | case3 kind branches ts ih =>
    rw [List.cons_append, paths, List.flatMap_assoc]
    refine List.flatMap_congr fun a ha => ?_
    rw [← List.append_assoc, ih a]

theorem paths_group (kind : GroupKind) (branches : List (List Token)) (ts : List Token) :
    paths (group kind branches :: ts) = (arrangements kind branches).flatMap fun a =>
      (paths a).flatMap fun es => (paths ts).map (es ++ ·) := by
  rw [paths, List.flatMap_subtype (g := fun a => paths (a ++ ts)) fun _ _ => rfl,
    List.unattach_attach]
  exact List.flatMap_congr fun a _ => paths_append a ts

/-- **The paths are the elements of the choices,** one for one. -/
theorem paths_eq_map_choices (ts : List Token) :
    paths ts = (choices ts).map (List.map Taken.element) := by
  induction ts with
  | nil => simp [paths, choices]
  | cons t ts ih =>
    cases t with
    | element e =>
      rw [paths, choices, ih, List.map_map, List.map_map]
      rfl
    | group kind branches =>
      rw [paths_group, choices, ih]
      simp [List.map_flatMap, Function.comp_def]

theorem isArgument_of_wellFormed {ts : List Token} (hw : ∀ t ∈ ts, t.WellFormed false) :
    ∀ c ∈ choices ts, ∀ x ∈ c, x.element.isArgument = x.isArgument := by
  induction ts with
  | nil =>
    intro c hc x hx
    obtain rfl := List.mem_singleton.mp hc
    cases hx
  | cons t ts ih =>
    have hrest := ih fun u hu => hw u (List.mem_cons_of_mem t hu)
    intro c hc x hx
    cases t with
    | element e =>
      obtain ⟨d, hd, rfl⟩ := List.mem_map.mp hc
      rcases List.mem_cons.mp hx with rfl | hx
      · cases hw _ List.mem_cons_self with
        | element description h => rfl
      · exact hrest d hd x hx
    | group kind branches =>
      obtain ⟨a, ha, hc⟩ := List.mem_flatMap.mp hc
      obtain ⟨es, hes, hc⟩ := List.mem_flatMap.mp hc
      obtain ⟨d, hd, rfl⟩ := List.mem_map.mp hc
      rcases List.mem_append.mp hx with hx | hx
      · obtain ⟨e, he, rfl⟩ := List.mem_map.mp hx
        -- A group stands in itself, so that its elements do not depend on where it stands.
        have hgroup : ∀ t ∈ [group kind branches], t.WellFormed true := by
          intro t ht
          rw [List.mem_singleton.mp ht]
          cases hw _ List.mem_cons_self with
          | group ne limit inner => exact .group ne limit inner
        have hdenotes : Denotes [group kind branches] es := by
          rw [denotes_group]
          exact ⟨a, ha, by rw [List.append_nil]; exact mem_paths.mp hes⟩
        have hinside : ∀ e ∈ es, e.isArgument = true :=
          hdenotes.forall_of_wellFormed hgroup fun _ _ _ hin _ => by
            simp [Element.ofArgspec, hin rfl]
        rw [hinside e he]
        rfl
      · exact hrest d hd x hx

/-- **A compiled element is marked as an argument just where a choice designates it.** -/
theorem isArgument_of_mem_choices {spec : String} {help : List String} {ts : List Token}
    (h : compile spec help = .ok ts) {c : List Taken} (hc : c ∈ choices ts) :
    ∀ x ∈ c, x.element.isArgument = x.isArgument :=
  isArgument_of_wellFormed (wellFormed_of_compile h).2 c hc

/-! ## Arguments along a path -/

/-- The words of a path up to which the path is marked. -/
def wordsAlong (marked : List String → Bool) : List String → List Value
  | [] => []
  | k :: p => (if marked [k] then [.word k] else []) ++ wordsAlong (fun q => marked (k :: q)) p

theorem wordsAlong_congr {f g : List String → Bool} {p : List String}
    (h : ∀ q ≠ [], q <+: p → f q = g q) : wordsAlong f p = wordsAlong g p := by
  induction p generalizing f g with
  | nil => rfl
  | cons k p ih =>
    have hk : f [k] = g [k] := h [k] (List.cons_ne_nil _ _) (List.prefix_append [k] p)
    have hp := ih (f := fun q => f (k :: q)) (g := fun q => g (k :: q)) fun q _ hq =>
      h (k :: q) (List.cons_ne_nil _ _) (List.cons_prefix_cons.mpr ⟨rfl, hq⟩)
    rw [wordsAlong, wordsAlong, hk, hp]

/-- What a choice takes at the end of some keywords, if it begins with them. -/
def atEnd : List Taken → List String → Option Taken
  | x :: _, [k] => if k = x.keyword then some x else none
  | x :: c, k :: ks => if k = x.keyword then atEnd c ks else none
  | _, _ => none

theorem atEnd_cons_self (x : Taken) (c : List Taken) {q : List String} (hq : q ≠ []) :
    atEnd (x :: c) (x.keyword :: q) = atEnd c q := by
  cases q with
  | nil => exact absurd rfl hq
  | cons k q => exact if_pos rfl

theorem mem_of_atEnd {c : List Taken} {q : List String} {x : Taken} (h : atEnd c q = some x) :
    x ∈ c := by
  fun_induction atEnd c q with
  | case1 y c =>
    cases h
    exact List.mem_cons_self
  | case2 => cases h
  | case3 y c ks hks ih => exact List.mem_cons_of_mem y (ih h)
  | case4 => cases h
  | case5 => cases h

/-- The arguments that a choice designates, its path being typed keyword by keyword. -/
def designated (c : List Taken) : List Value :=
  (c.filter Taken.isArgument).map fun x => .word x.keyword

theorem designated_eq_wordsAlong (c : List Taken) : designated c =
    wordsAlong (fun q => (atEnd c q).any Taken.isArgument) (c.map Taken.keyword) := by
  induction c with
  | nil => rfl
  | cons x c ih =>
    have hx : atEnd (x :: c) [x.keyword] = some x := if_pos rfl
    have hc : wordsAlong (fun q => (atEnd (x :: c) (x.keyword :: q)).any Taken.isArgument)
        (c.map Taken.keyword) = designated c := by
      rw [ih]
      exact wordsAlong_congr fun q hq _ => by rw [atEnd_cons_self x c hq]
    rw [List.map_cons, wordsAlong, hx, hc, designated, List.filter_cons]
    cases h : x.isArgument <;> simp [h, designated]

/-- What the first choice that begins with some keywords takes at their end. -/
def firstAt (ts : List Token) (q : List String) : Option Taken :=
  (choices ts).findSome? (atEnd · q)

theorem exists_choice_of_firstAt {ts : List Token} {q : List String} {x : Taken}
    (h : firstAt ts q = some x) : ∃ c ∈ choices ts, x ∈ c := by
  obtain ⟨c, hc, hx⟩ := List.exists_of_findSome?_eq_some h
  exact ⟨c, hc, mem_of_atEnd hx⟩

/-- The words of a path which the first choices that begin so designate. -/
def handed (ts : List Token) (p : List String) : List Value :=
  wordsAlong (fun q => (firstAt ts q).any Taken.isArgument) p

/-- **Where the first choices say the same, what they designate is what the choice itself
designates.** -/
theorem handed_eq_designated {ts : List Token} {c : List Taken}
    (h : ∀ q ≠ [], q <+: c.map Taken.keyword →
      (firstAt ts q).any Taken.isArgument = (atEnd c q).any Taken.isArgument) :
    handed ts (c.map Taken.keyword) = designated c := by
  rw [designated_eq_wordsAlong]
  exact wordsAlong_congr h

end Console.Token
