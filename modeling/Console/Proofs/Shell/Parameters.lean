import Console.Proofs.Shell.OwnArguments
import Console.Proofs.Tree.Univocal
import Mathlib.Data.List.Pairwise

/-!
# Parameters in any order

A command may take parameters, each with a keyword and a place for its value, as the branches of a
permutation. Its tree has a way for every order of them. Behind some parameters just the keywords of
the others may come next, so that none is taken twice.

* `Parameter`, `Token.withParameters`, `Parameter.Proper`: such commands;
* `denotes_withParameters`, `begins_withParameters`: their paths, and what these begin with;
* **`univocal_withParameters`**: the keywords of a beginning tell which it is;
* `exists_key_of_begins`, `eq_place_of_begins`: what comes next;
* `Given`, `Given.Fits`: what is typed for a parameter, and its value;
* **`Behind.exists_walks_given`**: the walk along parameters that have not been taken;
* **`expand_again_eq_nil`**: the keyword of one that has been taken;
* **`Shell.expand_parameters`**: parameters are taken in any order, and each at most once.
-/

namespace Console

universe u

variable {η : Type u} {σ : Type}

/-- A parameter of a command: its keyword, and the place for its value. -/
structure Parameter where
  key : Element
  place : Element
  deriving DecidableEq

namespace Parameter

/-- The two elements of a parameter. -/
def pair (p : Parameter) : List Element := [p.key, p.place]

/-- Of the keywords of two parameters, none begins the other. -/
def Apart (p q : Parameter) : Prop :=
  ¬ p.key.keyword.toList <+: q.key.keyword.toList ∧ ¬ q.key.keyword.toList <+: p.key.keyword.toList

instance (p q : Parameter) : Decidable (p.Apart q) := inferInstanceAs (Decidable (_ ∧ _))

instance : Std.Symm Apart := ⟨fun _ _ h => ⟨h.2, h.1⟩⟩

/-- A word and some parameters for it: words are literal, places are typed, none of them may be
repeated, and the keyword of no parameter begins that of another one. -/
structure Proper (w : Element) (ps : List Parameter) : Prop where
  word : w.converter = none ∧ w.isRecursive = false
  keys : ∀ p ∈ ps, p.key.converter = none ∧ p.key.isRecursive = false
  places : ∀ p ∈ ps, p.place.converter.isSome = true ∧ p.place.isRecursive = false
  apart : ps.Pairwise Apart

/-- These are distinct ones of the parameters. -/
def Chosen (ps chosen : List Parameter) : Prop := chosen.Nodup ∧ ∀ p ∈ chosen, p ∈ ps

end Parameter

open Parameter

/-- The tokens of a word and a permutation of parameters. -/
def Token.withParameters (w : Element) (ps : List Parameter) : List Token :=
  [.element w, .group .permutation (ps.map fun p => p.pair.map .element)]

namespace Parameter

variable {w : Element} {ps : List Parameter}

theorem Proper.nodup (h : Proper w ps) : ps.Nodup :=
  h.apart.imp fun hapart heq => by
    rw [heq] at hapart
    exact hapart.1 List.prefix_rfl

theorem Proper.apart_of_ne (h : Proper w ps) {p q : Parameter} (hp : p ∈ ps) (hq : q ∈ ps)
    (hne : p ≠ q) : p.Apart q :=
  h.apart.forall hp hq hne

theorem Proper.eq_of_keyword (h : Proper w ps) {p q : Parameter} (hp : p ∈ ps) (hq : q ∈ ps)
    (heq : p.key.keyword = q.key.keyword) : p = q := by
  by_contra hne
  exact (h.apart_of_ne hp hq hne).1 (heq ▸ List.prefix_rfl)

/-! ## Beginnings of the elements of parameters -/

theorem cases_of_prefix_pair {p : Parameter} {xs ys : List Element} (h : xs <+: p.pair ++ ys) :
    xs = [] ∨ xs = [p.key] ∨ ∃ zs, xs = p.pair ++ zs ∧ zs <+: ys := by
  match xs, h with
  | [], _ => exact .inl rfl
  | [x], h =>
    obtain ⟨hx, -⟩ := List.cons_prefix_cons.mp h
    exact .inr (.inl (by rw [hx]))
  | x :: y :: zs, h =>
    obtain ⟨hx, h⟩ := List.cons_prefix_cons.mp h
    obtain ⟨hy, h⟩ := List.cons_prefix_cons.mp h
    exact .inr (.inr ⟨zs, by rw [hx, hy]; rfl, h⟩)

theorem flatMap_pair_append (chosen : List Parameter) (p : Parameter) :
    (chosen ++ [p]).flatMap pair = chosen.flatMap pair ++ [p.key, p.place] := by
  rw [List.flatMap_append, List.flatMap_singleton, pair]

theorem length_flatMap_pair (chosen : List Parameter) :
    (chosen.flatMap pair).length = 2 * chosen.length := by
  induction chosen with
  | nil => rfl
  | cons p chosen ih =>
    rw [List.flatMap_cons, List.length_append, ih, List.length_cons, pair, List.length_cons,
      List.length_singleton]
    omega

theorem flatMap_pair_inj {chosen others : List Parameter}
    (h : chosen.flatMap pair = others.flatMap pair) : chosen = others := by
  induction chosen generalizing others with
  | nil =>
    cases others with
    | nil => rfl
    | cons q others => cases h
  | cons p chosen ih =>
    cases others with
    | nil => cases h
    | cons q others =>
      obtain ⟨hpair, hrest⟩ := List.append_inj h rfl
      obtain ⟨key, place⟩ := p
      obtain ⟨key', place'⟩ := q
      obtain ⟨rfl, hplace⟩ := List.cons.inj hpair
      obtain ⟨rfl, -⟩ := List.cons.inj hplace
      rw [ih hrest]

theorem exists_of_prefix {xs : List Element} {chosen : List Parameter}
    (h : xs <+: chosen.flatMap pair) :
    ∃ done rest, chosen = done ++ rest ∧
      (xs = done.flatMap pair ∨ ∃ p ∈ rest.head?, xs = done.flatMap pair ++ [p.key]) := by
  induction chosen generalizing xs with
  | nil => exact ⟨[], [], rfl, .inl (List.prefix_nil.mp h)⟩
  | cons p chosen ih =>
    rcases cases_of_prefix_pair h with rfl | rfl | ⟨zs, rfl, hzs⟩
    · exact ⟨[], p :: chosen, rfl, .inl rfl⟩
    · exact ⟨[], p :: chosen, rfl, .inr ⟨p, rfl, rfl⟩⟩
    · obtain ⟨done, rest, rfl, hxs⟩ := ih hzs
      refine ⟨p :: done, rest, rfl, hxs.imp ?_ ?_⟩
      · rintro rfl
        rfl
      · rintro ⟨q, hq, rfl⟩
        exact ⟨q, hq, rfl⟩

theorem Proper.eq_of_map_keyword (h : Proper w ps) {chosen others : List Parameter}
    (hchosen : ∀ p ∈ chosen, p ∈ ps) (hothers : ∀ p ∈ others, p ∈ ps) {xs ys : List Element}
    (hxs : xs <+: chosen.flatMap pair) (hys : ys <+: others.flatMap pair)
    (heq : xs.map Element.keyword = ys.map Element.keyword) : xs = ys := by
  induction chosen generalizing others xs ys with
  | nil =>
    obtain rfl := List.prefix_nil.mp hxs
    exact (List.map_eq_nil_iff.mp heq.symm).symm
  | cons p chosen ih =>
    cases others with
    | nil =>
      obtain rfl := List.prefix_nil.mp hys
      exact List.map_eq_nil_iff.mp heq
    | cons q others =>
      obtain ⟨hp, hchosen⟩ := List.forall_mem_cons.mp hchosen
      obtain ⟨hq, hothers⟩ := List.forall_mem_cons.mp hothers
      rcases cases_of_prefix_pair hxs with rfl | rfl | ⟨xs', rfl, hxs'⟩
      · exact (List.map_eq_nil_iff.mp heq.symm).symm
      · rcases cases_of_prefix_pair hys with rfl | rfl | ⟨ys', rfl, -⟩
        · cases heq
        · rw [h.eq_of_keyword hp hq (List.cons.inj heq).1]
        · simp [pair] at heq
      · rcases cases_of_prefix_pair hys with rfl | rfl | ⟨ys', rfl, hys'⟩
        · cases heq
        · simp [pair] at heq
        · obtain ⟨hkey, heq⟩ := List.cons.inj heq
          rw [h.eq_of_keyword hp hq hkey, ih hchosen hothers hxs' hys' (List.cons.inj heq).2]

end Parameter

namespace Token

variable {w : Element} {ps : List Parameter}

/-! ## The paths of a command with parameters -/

theorem denotes_map_element {es fs : List Element} :
    Denotes (es.map Token.element) fs ↔ fs = es := by
  induction es generalizing fs with
  | nil => exact denotes_nil
  | cons e es ih =>
    rw [List.map_cons, denotes_element]
    simp only [ih, exists_eq_right]

theorem denotes_withParameters (hps : ps.Nodup) {es : List Element} :
    Denotes (withParameters w ps) es ↔
      ∃ chosen, chosen ≠ [] ∧ Chosen ps chosen ∧ es = w :: chosen.flatMap pair := by
  have hflatten (chosen : List Parameter) :
      (chosen.map fun p => p.pair.map Token.element).flatten ++ [] =
        (chosen.flatMap pair).map Token.element := by
    rw [List.append_nil, List.map_flatMap, List.flatMap]
  rw [withParameters, denotes_element]
  simp only [denotes_group, arrangements, Selection.selections_map, List.mem_map,
    exists_exists_and_eq_and, Selection.mem_selections_of_nodup hps, hflatten, denotes_map_element]
  constructor
  · rintro ⟨fs, rfl, chosen, ⟨hne, hchosen⟩, rfl⟩
    exact ⟨chosen, hne, hchosen, rfl⟩
  · rintro ⟨chosen, hne, hchosen, rfl⟩
    exact ⟨_, rfl, chosen, ⟨hne, hchosen⟩, rfl⟩

/-- What the paths begin with: some parameters behind the word, and perhaps the keyword of another
one. -/
theorem begins_withParameters (hps : ps.Nodup) {xs : List Element}
    (h : Begins (withParameters w ps) xs) :
    xs = [] ∨ ∃ chosen, Chosen ps chosen ∧ (xs = w :: chosen.flatMap pair ∨
      ∃ p, p ∈ ps ∧ p ∉ chosen ∧ xs = w :: (chosen.flatMap pair ++ [p.key])) := by
  obtain ⟨ys, hpath⟩ := h
  obtain ⟨chosen, -, hchosen, hes⟩ := (denotes_withParameters hps).mp hpath
  cases xs with
  | nil => exact .inl rfl
  | cons x xs =>
    obtain ⟨rfl, hpre⟩ := List.cons_prefix_cons.mp ⟨ys, hes⟩
    obtain ⟨done, rest, rfl, hxs⟩ := exists_of_prefix hpre
    have hdone : Chosen ps done :=
      ⟨(List.nodup_append.mp hchosen.1).1, fun p hp => hchosen.2 p (List.mem_append_left rest hp)⟩
    refine .inr ⟨done, hdone, hxs.imp (congrArg _) ?_⟩
    rintro ⟨p, hp, rfl⟩
    have hrest : p ∈ rest := List.mem_of_head? hp
    exact ⟨p, hchosen.2 p (List.mem_append_right done hrest),
      fun hdone => (List.nodup_append.mp hchosen.1).2.2 p hdone p hrest rfl, rfl⟩

theorem begins_place {chosen : List Parameter} {p : Parameter} (hps : ps.Nodup)
    (h : Chosen ps (chosen ++ [p])) :
    Begins (withParameters w ps) (w :: (chosen.flatMap pair ++ [p.key]) ++ [p.place]) := by
  refine ⟨[], (denotes_withParameters hps).mpr ⟨_, List.append_ne_nil_of_right_ne_nil _
    (List.cons_ne_nil p []), h, ?_⟩⟩
  rw [flatMap_pair_append]
  simp

theorem exists_key_of_begins {chosen : List Parameter} (hps : ps.Nodup) {x : Element}
    (h : Begins (withParameters w ps) (w :: chosen.flatMap pair ++ [x])) :
    ∃ p ∈ ps, p ∉ chosen ∧ x = p.key := by
  obtain hnil | ⟨others, -, hpair | ⟨p, hp, hnew, hkey⟩⟩ := begins_withParameters hps h
  · cases hnil
  · -- A keyword and its place come together.
    have hlength := congrArg List.length hpair
    simp only [List.cons_append, List.length_cons, List.length_append, List.length_nil,
      length_flatMap_pair] at hlength
    omega
  · obtain ⟨hsame, hx⟩ := List.append_inj' (List.cons.inj hkey).2 rfl
    rw [flatMap_pair_inj hsame]
    exact ⟨p, hp, hnew, (List.cons.inj hx).1⟩

theorem eq_place_of_begins (h : Proper w ps) {chosen : List Parameter} {p : Parameter}
    (hp : p ∈ ps) {x : Element}
    (hx : Begins (withParameters w ps) (w :: (chosen.flatMap pair ++ [p.key]) ++ [x])) :
    x = p.place := by
  obtain hnil | ⟨others, hothers, hpair | ⟨q, -, -, hkey⟩⟩ := begins_withParameters h.nodup hx
  · cases hnil
  · have hend : chosen.flatMap pair ++ [p.key] ++ [x] = others.flatMap pair :=
      (List.cons.inj hpair).2
    rcases List.eq_nil_or_concat' others with rfl | ⟨others, q, rfl⟩
    · simp at hend
    · rw [flatMap_pair_append, List.append_assoc] at hend
      obtain ⟨-, hlast⟩ := List.append_inj' hend rfl
      obtain ⟨hkey, hplace⟩ := List.cons.inj hlast
      obtain rfl : p = q := h.eq_of_keyword hp (hothers.2 q (by simp)) (congrArg _ hkey)
      exact (List.cons.inj hplace).1
  · have hlength := congrArg List.length hkey
    simp only [List.cons_append, List.length_cons, List.length_append, List.length_nil,
      length_flatMap_pair] at hlength
    omega

/-- **The keywords of a beginning tell which it is.** -/
theorem univocal_withParameters (h : Proper w ps) : Univocal (withParameters w ps) where
  eq_of_keywords xs ys hxs hys heq := by
    obtain ⟨xs', hxs⟩ := hxs
    obtain ⟨ys', hys⟩ := hys
    obtain ⟨chosen, -, hchosen, hpath⟩ := (denotes_withParameters h.nodup).mp hxs
    obtain ⟨others, -, hothers, hpath'⟩ := (denotes_withParameters h.nodup).mp hys
    cases xs with
    | nil => exact (List.map_eq_nil_iff.mp heq.symm).symm
    | cons x xs =>
      cases ys with
      | nil => cases heq
      | cons y ys =>
        obtain ⟨rfl, hpre⟩ := List.cons_prefix_cons.mp ⟨xs', hpath⟩
        obtain ⟨rfl, hpre'⟩ := List.cons_prefix_cons.mp ⟨ys', hpath'⟩
        rw [h.eq_of_map_keyword hchosen.2 hothers.2 hpre hpre' (List.cons.inj heq).2]
  plain xs hxs x hx := by
    obtain ⟨ys, hys⟩ := hxs
    obtain ⟨chosen, -, hchosen, hpath⟩ := (denotes_withParameters h.nodup).mp hys
    have hmem : x ∈ w :: chosen.flatMap pair := hpath ▸ List.mem_append_left ys hx
    rcases List.mem_cons.mp hmem with rfl | hmem
    · exact h.word.2
    · obtain ⟨p, hp, hpair⟩ := List.mem_flatMap.mp hmem
      rcases List.mem_pair.mp hpair with rfl | rfl
      · exact (h.keys p (hchosen.2 p hp)).2
      · exact (h.places p (hchosen.2 p hp)).2

theorem begins_word (hps : ps.Nodup) (hne : ps ≠ []) : Begins (withParameters w ps) [w] := by
  obtain ⟨p, hp⟩ := List.exists_mem_of_ne_nil ps hne
  have hchosen : Chosen ps ([] ++ [p]) :=
    ⟨List.nodup_singleton p, fun q hq => List.mem_singleton.mp hq ▸ hp⟩
  have hplace : Begins (withParameters w ps) ([w] ++ [p.key, p.place]) := begins_place hps hchosen
  exact hplace.of_append

/-! ## Words and places that are arguments -/

theorem isArgument_withParameters {spec : String} {help : List String}
    (hc : compile spec help = .ok (withParameters w ps)) (h : Proper w ps) :
    ps ≠ [] ∧ w.isArgument = false ∧ ∀ p ∈ ps, ∀ e ∈ p.pair, e.isArgument = true := by
  obtain ⟨-, hwf⟩ := wellFormed_of_compile hc
  obtain ⟨hword, hgroup⟩ := List.forall_mem_cons.mp hwf
  cases List.forall_mem_singleton.mp hgroup with
  | group ne limit inner =>
    refine ⟨mt List.map_eq_nil_iff.mpr ne, ?_, fun p hp e he => ?_⟩
    · cases hword with
      | @element _ argspec description hspec =>
        have hliteral : Converter.resolve (Element.keywordOf argspec) = none := h.word.1
        simp [Element.ofArgspec, hliteral]
    · cases inner _ (List.mem_map_of_mem hp) _ (List.mem_map_of_mem he) with
      | element description hspec => rfl

end Token

/-! ## What is typed -/

/-- A parameter with what is typed for it, and the value of that. -/
structure Given where
  parameter : Parameter
  typed : String
  value : Value

namespace Given

/-- The place takes what is typed. This does not begin the keyword of the place, except that it may
be the keyword of a variable. -/
structure Fits (g : Given) : Prop where
  delivers : ∃ c, g.parameter.place.converter = some c ∧ c.Delivers g.typed g.value
  begins : g.typed.toList <+: g.parameter.place.keyword.toList →
    g.typed = g.parameter.place.keyword ∧ g.parameter.place.converter = some .variable

/-- The fragments for a parameter. -/
def fragments (g : Given) : List String := [g.parameter.key.keyword, g.typed]

/-- The arguments for a parameter. -/
def arguments (g : Given) : List Value := [.word g.parameter.key.keyword, g.value]

theorem Fits.parse_eq {g : Given} (h : g.Fits) {n : CommandTree η}
    (hn : n.element = g.parameter.place) : n.parse g.typed = some g.value := by
  obtain ⟨c, hc, hvalue⟩ := h.delivers
  by_cases hbegins : g.typed.toList <+: n.keyword.toList
  · rw [CommandTree.keyword, hn] at hbegins
    obtain ⟨htyped, hvariable⟩ := h.begins hbegins
    obtain rfl : c = .variable := Option.some.inj (hc.symm.trans hvariable)
    have hkeyword : g.typed = n.keyword := by rw [CommandTree.keyword, hn, htyped]
    rw [show g.value = .word g.typed from hvalue, hkeyword, n.parse_keyword]
  · rw [CommandTree.parse_of_not_begins hbegins, hn, hc, Option.bind_some]
    exact Converter.apply_eq_some.mpr hvalue

end Given

namespace Token

variable {w : Element} {ps : List Parameter} {handler : η} {hidden : Bool}

/-- **The walk along parameters that have not been taken.** Each leads from a node behind some
parameters to one behind one more. -/
theorem Behind.exists_walks_given (h : Proper w ps) {done : List Parameter} {gs : List Given}
    {n : CommandTree η}
    (hn : Behind (withParameters w ps) handler hidden (w :: done.flatMap pair) n)
    (hchosen : Chosen ps (done ++ gs.map Given.parameter)) (hfits : ∀ g ∈ gs, g.Fits) :
    ∃ ss, n.Walks (gs.flatMap Given.fragments) ss ∧
      ss.map Step.value = gs.flatMap Given.arguments ∧
      (ss.map fun s => s.node.element) = (gs.map Given.parameter).flatMap pair := by
  have hu := univocal_withParameters h
  induction gs generalizing done n with
  | nil => exact ⟨[], .nil n, rfl, rfl⟩
  | cons g gs ih =>
    obtain ⟨hg, hgs⟩ := List.forall_mem_cons.mp hfits
    rw [List.map_cons, List.append_cons] at hchosen
    have hnext : Chosen ps (done ++ [g.parameter]) :=
      ⟨(List.nodup_append.mp hchosen.1).1, fun p hp => hchosen.2 p (List.mem_append_left _ hp)⟩
    have hmem : g.parameter ∈ ps := hnext.2 _ (by simp)
    have hbegins := begins_place (w := w) h.nodup hnext
    obtain ⟨key, hkey, hbehind⟩ := hn.exists_child (x := g.parameter.key) hbegins.of_append
    obtain ⟨place, hplace, hbehind'⟩ := hbehind.exists_child hbegins
    have hvalue := hg.parse_eq (hbehind'.element_eq hu)
    have hstep := hbehind.stepsFor_of_only hu (fun y hy => eq_place_of_begins h hmem hy) hplace
      hvalue
    have hdone : Behind (withParameters w ps) handler hidden
        (w :: (done ++ [g.parameter]).flatMap pair) place := by
      rw [List.append_assoc] at hbehind'
      rw [flatMap_pair_append]
      exact hbehind'
    obtain ⟨ss, hwalk, hvalues, helements⟩ := ih hdone hchosen hgs
    have hboth : n.Walks (g.parameter.key.keyword :: g.typed :: gs.flatMap Given.fragments)
        (⟨.word g.parameter.key.keyword, key, false⟩ :: ⟨g.value, place, false⟩ :: ss) :=
      .cons (CommandTree.stepsFor_of_child hkey) (.cons hstep hwalk)
    refine ⟨_, hboth, ?_, ?_⟩
    · rw [List.map_cons, List.map_cons, hvalues]
      rfl
    · rw [List.map_cons, List.map_cons, helements, hbehind.element_eq hu, hbehind'.element_eq hu]
      rfl

theorem behind_of_expand (h : Proper w ps) (hps : ps ≠ []) {fs : List String} {e : Expansion η}
    (he : expand (CommandTree.root.build (withParameters w ps) handler hidden) fs false = [e]) :
    Behind (withParameters w ps) handler hidden (e.nodes.map CommandTree.element)
      (e.reached (CommandTree.root.build (withParameters w ps) handler hidden)) := by
  have hbegins : Begins (withParameters w ps) ([] ++ [w]) := begins_word h.nodup hps
  have hroot : Behind (withParameters w ps) handler hidden [] _ := behind_nil hbegins.of_append
  have hend := hroot.walks (univocal_withParameters h) (CommandTree.walks_of_expand he)
  rwa [List.nil_append, ← Expansion.map_element_nodes] at hend

theorem exists_expand_given {spec : String} {help : List String}
    (hc : compile spec help = .ok (withParameters w ps)) (h : Proper w ps) (handler : η)
    (hidden : Bool) {gs : List Given} (hne : gs ≠ []) (hchosen : Chosen ps (gs.map Given.parameter))
    (hfits : ∀ g ∈ gs, g.Fits) :
    ∃ e, expand (CommandTree.root.build (withParameters w ps) handler hidden)
        (w.keyword :: gs.flatMap Given.fragments) false = [e] ∧
      e.last?.bind CommandTree.handler = some handler ∧
      e.arguments = gs.flatMap Given.arguments := by
  have hu := univocal_withParameters h
  obtain ⟨hps, hword, hpairs⟩ := isArgument_withParameters hc h
  have hbegins : Begins (withParameters w ps) ([] ++ [w]) := begins_word h.nodup hps
  have hroot : Behind (withParameters w ps) handler hidden [] _ := behind_nil hbegins.of_append
  obtain ⟨n, hn, hbehind⟩ := hroot.exists_child hbegins
  have hfirst : Behind (withParameters w ps) handler hidden (w :: List.flatMap pair []) n := hbehind
  obtain ⟨ss, hwalk, hvalues, helements⟩ := hfirst.exists_walks_given h hchosen hfits
  have hexpand := CommandTree.expand_of_walks
    (.cons (CommandTree.stepsFor_of_child hn) hwalk) (List.cons_ne_nil _ ss)
  refine ⟨_, hexpand, ?_, ?_⟩
  · obtain ⟨m, hm⟩ := CommandTree.exists_last?_of_expand hexpand
    have hend := behind_of_expand h hps hexpand
    rw [Expansion.reached_of_last? hm, Expansion.map_element_nodes, List.map_cons, helements,
      hbehind.element_eq hu] at hend
    rw [hm, Option.bind_some]
    exact hend.handler_eq (List.cons_ne_nil _ _) ((denotes_withParameters h.nodup).mpr
      ⟨_, mt List.map_eq_nil_iff.mp hne, hchosen, rfl⟩)
  · have hall : ∀ s ∈ ss, s.node.element.isArgument = true := by
      intro s hs
      have hmem : s.node.element ∈ (gs.map Given.parameter).flatMap pair :=
        helements ▸ List.mem_map_of_mem hs
      obtain ⟨p, hp, he⟩ := List.mem_flatMap.mp hmem
      exact hpairs p (hchosen.2 p hp) _ he
    rw [Expansion.arguments, List.filter_cons_of_neg, List.filter_eq_self.mpr hall, hvalues]
    rw [hbehind.element_eq hu, hword]
    exact Bool.false_ne_true

theorem cases_of_expand (h : Proper w ps) (hps : ps ≠ []) {fs : List String} {e : Expansion η}
    (he : expand (CommandTree.root.build (withParameters w ps) handler hidden) fs false = [e]) :
    ∃ chosen, Chosen ps chosen ∧
      (e.nodes.map CommandTree.element = w :: chosen.flatMap pair ∨
        ∃ p ∈ ps, p ∉ chosen ∧
          e.nodes.map CommandTree.element = w :: (chosen.flatMap pair ++ [p.key])) := by
  have hbegins := (behind_of_expand h hps he).begins
  refine (begins_withParameters h.nodup hbegins).resolve_left fun hnil => ?_
  obtain ⟨n, hn⟩ := CommandTree.exists_last?_of_expand he
  rw [Expansion.map_element_nodes, List.map_eq_nil_iff] at hnil
  exact Expansion.steps_ne_nil hn hnil

/-- **Where the next keyword is awaited, that of a parameter before leaves no reading.** -/
theorem expand_again_eq_nil (h : Proper w ps) (hps : ps ≠ []) {fs : List String}
    {e : Expansion η}
    (he : expand (CommandTree.root.build (withParameters w ps) handler hidden) fs false = [e])
    {chosen : List Parameter} (hchosen : Chosen ps chosen)
    (hnodes : e.nodes.map CommandTree.element = w :: chosen.flatMap pair) {p : Parameter}
    (hp : p ∈ chosen) (rest : List String) (lookahead : Bool) :
    expand (CommandTree.root.build (withParameters w ps) handler hidden)
      (fs ++ p.key.keyword :: rest) lookahead = [] := by
  have hend := behind_of_expand h hps he
  rw [hnodes] at hend
  have hnone := hend.stepsFor_eq_nil (univocal_withParameters h) (f := p.key.keyword) fun x hx => by
    obtain ⟨q, hq, hnew, rfl⟩ := exists_key_of_begins h.nodup hx
    have hne : p ≠ q := fun heq => hnew (heq ▸ hp)
    exact ⟨(h.keys q hq).1, (h.apart_of_ne (hchosen.2 p hp) hq hne).1⟩
  rw [expand, CommandTree.expandFrom_append_of_walks (CommandTree.walks_of_expand he),
    CommandTree.expandFrom_cons_of_ne (by rw [hnone]; exact Nat.zero_ne_one), hnone, List.map_nil]

end Token

namespace Shell

/-- **Parameters are taken in any order, and each at most once.** Distinct parameters behind the
word of a command that is loaded alone have one reading, with their keywords and values as arguments
in the order in which they have been typed. Whatever has one reading has gone to distinct
parameters, and perhaps to the keyword of another one; that of a parameter which has been taken
leaves no reading. -/
theorem expand_parameters (prompt : String) {c : Command σ} {w : Element} {ps : List Parameter}
    (hc : compile c.spec c.help = .ok (Token.withParameters w ps)) (h : Proper w ps) (world : σ) :
    ∃ s, (Shell.empty prompt).load (.ofList [c]) world = ⟨.ok (), s, world⟩ ∧
      (∀ gs : List Given, gs ≠ [] → Chosen ps (gs.map Given.parameter) → (∀ g ∈ gs, g.Fits) →
        ∃ e, expand s.root (w.keyword :: gs.flatMap Given.fragments) false = [e] ∧
          e.last?.bind CommandTree.handler = some c.handler ∧
          e.arguments = gs.flatMap Given.arguments) ∧
      (∀ fs e, expand s.root fs false = [e] → ∃ chosen, Chosen ps chosen ∧
        (e.nodes.map CommandTree.element = w :: chosen.flatMap pair ∨ ∃ p ∈ ps, p ∉ chosen ∧
          e.nodes.map CommandTree.element = w :: (chosen.flatMap pair ++ [p.key]))) ∧
      ∀ fs e chosen, expand s.root fs false = [e] → Chosen ps chosen →
        e.nodes.map CommandTree.element = w :: chosen.flatMap pair →
        ∀ p ∈ chosen, ∀ rest lookahead,
          expand s.root (fs ++ p.key.keyword :: rest) lookahead = [] := by
  obtain ⟨hps, -⟩ := Token.isArgument_withParameters hc h
  refine ⟨_, load_singleton prompt hc world, fun gs hne hchosen hfits => ?_, fun fs e he => ?_,
    fun fs e chosen he hchosen hnodes p hp => ?_⟩
  · exact Token.exists_expand_given hc h c.handler c.hidden hne hchosen hfits
  · exact Token.cases_of_expand h hps he
  · exact Token.expand_again_eq_nil h hps he hchosen hnodes hp

/-- A parameter whose value is a word. -/
def testPath : Parameter := ⟨.ofArgspec "path" "" true, .ofArgspec "PATH" "" true⟩

/-- A parameter whose value is a digit other than zero. -/
def testPort : Parameter := ⟨.ofArgspec "port" "" true, .ofArgspec "<1-9>" "" true⟩

/-- A command with two parameters. -/
def testCommand : Command Unit := .idle "test \x7bpath PATH | port <1-9>\x7d" false 0

/-- The port may stand before the path, and not once more. -/
theorem expand_parameters_test :
    let w := Element.ofArgspec "test" "" false
    compile testCommand.spec testCommand.help = .ok (Token.withParameters w [testPath, testPort]) ∧
      Proper w [testPath, testPort] ∧
      ∃ s, (Shell.empty ">").load (.ofList [testCommand]) () = ⟨.ok (), s, ()⟩ ∧
        (∃ e, expand s.root ["test", "port", "5", "path", "x"] false = [e] ∧
          e.last?.bind CommandTree.handler = some testCommand.handler ∧
          e.arguments = [.word "port", .integer 5, .word "path", .word "x"]) ∧
        (∃ e, expand s.root ["test", "port", "5"] false = [e]) ∧
        expand s.root ["test", "port", "5", "port", "6"] false = [] := by
  intro w
  have hcompile : compile testCommand.spec testCommand.help =
      .ok (Token.withParameters w [testPath, testPort]) := by
    decide +kernel
  have hproper : Proper w [testPath, testPort] :=
    ⟨by decide +kernel, by decide +kernel, by decide +kernel, by decide +kernel⟩
  let port : Given := ⟨testPort, "5", .integer 5⟩
  let path : Given := ⟨testPath, "x", .word "x"⟩
  have hport : port.Fits := by
    refine ⟨⟨.range 1 9, by decide +kernel, Converter.apply_eq_some.mp ?_⟩, fun h => ?_⟩
    · decide +kernel
    · exact absurd h (by decide +kernel)
  have hpath : path.Fits := by
    refine ⟨⟨.variable, by decide +kernel, rfl⟩, fun h => ?_⟩
    exact absurd h (by decide +kernel)
  obtain ⟨s, hload, hgiven, -, hagain⟩ := expand_parameters ">" hcompile hproper ()
  have hboth := hgiven [port, path] (List.cons_ne_nil _ _) ⟨by decide +kernel, by decide +kernel⟩
    (List.forall_mem_cons.mpr ⟨hport, List.forall_mem_singleton.mpr hpath⟩)
  have hs : s = ((Shell.empty ">").load (.ofList [testCommand]) ()).shell := by rw [hload]
  have hnodes : (expand s.root ["test", "port", "5"] false).map (fun e =>
      e.nodes.map CommandTree.element) = [w :: [testPort].flatMap pair] := by
    rw [hs]
    decide +kernel
  obtain ⟨e, he, helements⟩ := List.map_eq_singleton_iff.mp hnodes
  have hchosen : Chosen [testPath, testPort] [testPort] := ⟨by decide +kernel, by decide +kernel⟩
  exact ⟨hcompile, hproper, s, hload, hboth, ⟨e, he⟩,
    hagain _ e _ he hchosen helements testPort List.mem_cons_self ["6"] false⟩

end Shell

end Console
