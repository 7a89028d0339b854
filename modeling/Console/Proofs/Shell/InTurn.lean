import Console.Proofs.Converter
import Console.Proofs.Shell.FullSpelling
import Console.Proofs.Shell.Parameters

/-!
# Parameters one after another

Where the place of a parameter is the only child of its keyword, a keyword that is typed in full and
something that the place takes have one reading, whatever else stands beside the keyword.

* `Given.fits_word`, `Given.fits_integer`: what the place of a variable takes, and that of a range;
* `CommandTree.parametersAlong?`: the parameters behind some keywords, one after another;
* `stepsFor_of_only`: what is typed for a place that is the only child;
* **`exists_walks_of_parametersAlong`**: the walk along such parameters;
* `Given.handed`, **`Shell.read_of_parametersAlong`**: what a line with such parameters asks for.
-/

namespace Console

universe u

variable {η : Type u} {σ : Type}

open Parameter

/-! ## What is typed for a place -/

theorem Given.fits_word {p : Parameter} (hp : p.place.converter = some .variable) {text : String}
    (h : ¬ text.toList <+: p.place.keyword.toList) : (Given.mk p text (.word text)).Fits :=
  ⟨⟨.variable, hp, rfl⟩, fun hbegins => absurd hbegins h⟩

theorem Given.fits_integer {p : Parameter} {first last : Int64}
    (hp : p.place.converter = some (.range first last))
    (hopen : p.place.keyword.toList.head? = some '<') {text : String} {n : ℤ}
    (hn : Text.Decimal.Denotes text.toList n) (hbounds : first.toInt ≤ n ∧ n ≤ last.toInt) :
    (Given.mk p text (.integer (.ofInt n))).Fits := by
  refine ⟨⟨_, hp, Converter.apply_eq_some.mp ?_⟩, fun hbegins => ?_⟩
  · rw [Converter.apply_range_of_denotes hn, if_pos hbounds]
  · obtain ⟨c, rest, htext, hc⟩ := hn.exists_head
    rw [htext] at hbegins
    obtain ⟨more, hmore⟩ := hbegins
    rw [← hmore, List.cons_append, List.head?_cons, Option.some.injEq] at hopen
    subst hopen
    exact absurd hc (by decide)

/-! ## What is handed over -/

/-- What is handed over for a parameter: its keyword and its value, each if it is an argument. -/
def Given.handed (g : Given) : List Value :=
  (if g.parameter.key.isArgument then [.word g.parameter.key.keyword] else []) ++
    if g.parameter.place.isArgument then [g.value] else []

namespace CommandTree

/-- The only child of a node that may not be repeated. -/
def only? (t : CommandTree η) : Option (CommandTree η) :=
  match t.element.isRecursive, t.children.trees with
  | false, [c] => some c
  | _, _ => none

/-- The parameters with these keywords, one behind the other, if the place of each is the only child
of its keyword. -/
def parametersAlong? (t : CommandTree η) : List String → Option (List Parameter)
  | [] => some []
  | key :: keys =>
    (t.child? key).bind fun k => k.only?.bind fun n =>
      (n.parametersAlong? keys).map (⟨k.element, n.element⟩ :: ·)

/-! ## Walks along parameters -/

theorem only?_eq_some {t n : CommandTree η} :
    t.only? = some n ↔ t.element.isRecursive = false ∧ t.children.trees = [n] := by
  unfold only?
  split
  · rename_i hrec htrees
    simp [hrec, htrees, eq_comm]
  · rename_i hnot
    simpa using fun hrec htrees => hnot n hrec htrees

theorem child?_of_only {t n : CommandTree η} (ht : t.Sound) (hn : t.only? = some n) :
    t.child? n.keyword = some n :=
  (Children.mem_trees (sound_iff.mp ht)).mp ((only?_eq_some.mp hn).2 ▸ List.mem_singleton_self n)

theorem stepsFor_of_only {t n : CommandTree η} (ht : t.Sound) (hn : t.only? = some n) {f : String}
    {v : Value} (hv : n.parse f = some v) : t.stepsFor f = [⟨v, n, false⟩] := by
  obtain ⟨hrec, htrees⟩ := only?_eq_some.mp hn
  cases hf : t.child? f with
  | some c =>
    -- What is typed is the keyword of the place itself.
    obtain ⟨rfl, -⟩ := sound_child ht hf
    obtain rfl : c = n := by
      have hc := (Children.mem_trees (sound_iff.mp ht)).mpr hf
      rwa [htrees, List.mem_singleton] at hc
    rw [c.parse_keyword, Option.some.injEq] at hv
    rw [stepsFor_of_child hf, hv]
  | none =>
    have hopen : t.Open f := ⟨hf, fun h => absurd (hrec.symm.trans h) Bool.false_ne_true⟩
    rw [stepsFor_of_open hopen, htrees, List.filterMap_cons_some (by rw [hv, Option.map_some]),
      List.filterMap_nil]

theorem exists_of_parametersAlong {t : CommandTree η} {p : Parameter} {ps : List Parameter}
    {key : String} {keys : List String} (h : t.parametersAlong? (key :: keys) = some (p :: ps)) :
    ∃ k n, t.child? key = some k ∧ k.only? = some n ∧ k.element = p.key ∧ n.element = p.place ∧
      n.parametersAlong? keys = some ps := by
  obtain ⟨k, hk, h⟩ := Option.bind_eq_some_iff.mp h
  obtain ⟨n, hn, h⟩ := Option.bind_eq_some_iff.mp h
  obtain ⟨qs, hqs, heq⟩ := Option.map_eq_some_iff.mp h
  cases heq
  exact ⟨k, n, hk, hn, rfl, rfl, hqs⟩

/-- **The walk along parameters, one after another.** It has for each keyword the keyword and for
each place what this takes, and goes where the keywords lead. -/
theorem exists_walks_of_parametersAlong {t : CommandTree η} (ht : t.Sound) {gs : List Given}
    (h : t.parametersAlong? (gs.map fun g => g.parameter.key.keyword) =
      some (gs.map Given.parameter)) (hfits : ∀ g ∈ gs, g.Fits) :
    ∃ ss, t.Walks (gs.flatMap Given.fragments) ss ∧
      (Expansion.mk ss).arguments = gs.flatMap Given.handed ∧
      t.lookup (((gs.map Given.parameter).flatMap pair).map Element.keyword) =
        some ((Expansion.mk ss).reached t) := by
  induction gs generalizing t with
  | nil => exact ⟨[], .nil t, rfl, rfl⟩
  | cons g gs ih =>
    obtain ⟨hg, hgs⟩ := List.forall_mem_cons.mp hfits
    obtain ⟨k, n, hk, hn, hkey, hplace, hrest⟩ := exists_of_parametersAlong h
    have hksound := (sound_child ht hk).2
    have hchild := child?_of_only hksound hn
    obtain ⟨ss, hwalk, hargs, hlookup⟩ := ih (sound_child hksound hchild).2 hrest hgs
    have hvalue := stepsFor_of_only hksound hn (hg.parse_eq hplace)
    refine ⟨⟨.word g.parameter.key.keyword, k, false⟩ :: ⟨g.value, n, false⟩ :: ss,
      .cons (stepsFor_of_child hk) (.cons hvalue hwalk), ?_, ?_⟩
    · rw [List.flatMap_cons, ← hargs, Given.handed, ← hkey, ← hplace, Expansion.arguments,
        Expansion.arguments, List.filter_cons, List.filter_cons]
      split_ifs <;> rfl
    · rw [Expansion.reached_cons, Expansion.reached_cons, ← hlookup, ← lookup_cons_of_child hchild,
        ← lookup_cons_of_child hk, List.map_cons, List.flatMap_cons, pair, ← hplace]
      rfl

end CommandTree

/-! ## What a line asks for -/

namespace Shell

/-- **A line with parameters, one after another.** Let the keywords of the parameters be a path that
just one of the commands has. The line calls the handler of this command, with what is handed over
for the parameters in the order in which they have been typed. -/
theorem read_of_parametersAlong {s : Shell σ} {cs : List (Command σ)}
    (h : CommandTree.Gains .root cs s.root) {gs : List Given} (hne : gs ≠ [])
    (halong : s.root.parametersAlong? (gs.map fun g => g.parameter.key.keyword) =
      some (gs.map Given.parameter)) (hfits : ∀ g ∈ gs, g.Fits) {c : Command σ} (hc : c ∈ cs)
    (hdenotes : c.Denotes (((gs.map Given.parameter).flatMap pair).map Element.keyword))
    (honly : ∀ d ∈ cs, d.Denotes (((gs.map Given.parameter).flatMap pair).map Element.keyword) →
      d = c) {line : String} (hline : parse line = some (gs.flatMap Given.fragments)) :
    s.read line = .call c.handler (gs.flatMap Given.handed) := by
  obtain ⟨ss, hwalk, hargs, hlookup⟩ := CommandTree.exists_walks_of_parametersAlong h.sound halong
    hfits
  obtain ⟨g, gs, rfl⟩ := List.exists_cons_of_ne_nil hne
  obtain ⟨n, before, last, after, hn, hcs, hlast, -, hhandler⟩ :=
    h.exists_handler (List.cons_ne_nil _ _) hc hdenotes
  obtain rfl : n = (Expansion.mk ss).reached s.root := Option.some.inj (hn.symm.trans hlookup)
  obtain rfl : last = c := honly last (by simp [hcs]) hlast
  have hss : ss ≠ [] := by
    rintro rfl
    cases hwalk.length_eq
  have hexpand := CommandTree.expand_of_walks hwalk hss
  obtain ⟨m, hm⟩ := CommandTree.exists_last?_of_expand hexpand
  rw [← hargs]
  refine read_of_expand hline hexpand ?_
  rw [hm, Option.bind_some, ← Expansion.reached_of_last? hm s.root]
  exact hhandler

end Shell

end Console
