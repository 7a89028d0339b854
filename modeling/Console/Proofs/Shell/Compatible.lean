import Console.Proofs.Shell.Loaded
import Console.Proofs.Spec.RoundTrip
import Console.Proofs.Tree.Bare

/-!
# Compatible commands

Commands without a common path may still have nodes in common. Such a node has the element that was
brought to it first, so that the order of the commands decides whether the node is an argument and
whether it may be repeated. It decides nothing else that a line shows.

* `Element.traits`: what the order may decide;
* `Command.firstElement`: the element that some commands bring to a path first;
* `Command.Compatible`: commands that bring elements of the same traits to every new path that both
  reach; `compatible_of_agree`: it is enough that their paths agree as long as they run together;
* `Command.Unrelated`: commands without a common path;
* **`CommandTree.traitsAt_eq_iff_compatible`**, **`CommandTree.bare_children_eq_of_compatible`**:
  the trees that come of two orders.
-/

namespace Console

universe u

variable {η : Type u} {σ : Type}

/-- Whether an element is an argument, and whether it may be repeated. -/
def Element.traits (e : Element) : Bool × Bool := (e.isArgument, e.isRecursive)

theorem Element.IsCompiled.bare_eq {e f : Element} (he : e.IsCompiled) (hf : f.IsCompiled)
    (hk : e.keyword = f.keyword) (ht : e.traits = f.traits) : e.bare = f.bare := by
  obtain ⟨a, d, g, rfl⟩ := he
  obtain ⟨a', d', g', rfl⟩ := hf
  obtain ⟨harg, hrec⟩ := Prod.mk.inj ht
  have hk : keywordOf a = keywordOf a' := hk
  have hc : (ofArgspec a d g).converter = (ofArgspec a' d' g').converter :=
    congrArg Converter.resolve hk
  simp only [bare, Element.mk.injEq, true_and]
  exact ⟨hk, hc, harg, hrec⟩

namespace Label

theorem element_joined (a b : Option (Label η)) :
    (joined a b).map element = (a.map element).or (b.map element) := by
  cases a <;> cases b <;> rfl

/-- What a line shows of a union does not depend on the order of its parts if they do not both have
a handler and if the one that comes first does not decide the element. -/
theorem bare_joined_comm {l a b : Option (Label η)}
    (hhandler : a.bind handler = none ∨ b.bind handler = none)
    (helement : l = none → ∀ x ∈ a, ∀ y ∈ b, x.element.bare = y.element.bare) :
    (joined (joined l a) b).map bare = (joined (joined l b) a).map bare := by
  cases a with
  | none => simp
  | some x =>
    cases b with
    | none => simp
    | some y =>
      -- The handler of the later part wins, unless only one of them has a handler.
      have hor (h : Option η) : y.handler.or (x.handler.or h) = x.handler.or (y.handler.or h) := by
        rcases hhandler with hx | hy
        · rw [show x.handler = none from hx, Option.none_or, Option.none_or]
        · rw [show y.handler = none from hy, Option.none_or, Option.none_or]
      cases l with
      | none =>
        have hxy := helement rfl x rfl y rfl
        have hor := hor none
        rw [Option.or_none, Option.or_none] at hor
        simp [union, bare, hxy, hor]
      | some l => simp [union, bare, hor]

end Label

/-! ## Commands over a tree -/

namespace Command

/-- The element that some commands bring to a path first. -/
def firstElement (cs : List (Command σ)) (p : List String) : Option Element :=
  (cs.flatMap (·.labels p)).head?.map Label.element

theorem map_element_all_labels (cs : List (Command σ)) (p : List String) :
    (Label.all (cs.flatMap (·.labels p))).map Label.element = firstElement cs p :=
  Label.element_all _

theorem exists_path_of_firstElement {cs : List (Command σ)} {p : List String} {e : Element}
    (h : firstElement cs p = some e) : ∃ c ∈ cs, ∃ fs gs, c.HasPath (fs ++ e :: gs) ∧
      p = (fs ++ [e]).map Element.keyword := by
  obtain ⟨l, hl, rfl⟩ := Option.map_eq_some_iff.mp h
  obtain ⟨c, hc, hl⟩ := List.mem_flatMap.mp (List.mem_of_head? hl)
  obtain ⟨fs, e, gs, hpath, hp, rfl⟩ := mem_labels.mp hl
  exact ⟨c, hc, fs, gs, hpath, hp⟩

theorem bare_firstElement_eq {cs ds : List (Command σ)} {p : List String} {e f : Element}
    (he : firstElement cs p = some e) (hf : firstElement ds p = some f)
    (ht : e.traits = f.traits) : e.bare = f.bare := by
  obtain ⟨c, -, fs, gs, ⟨tokens, hc, hes⟩, hp⟩ := exists_path_of_firstElement he
  obtain ⟨d, -, fs', gs', ⟨tokens', hd, hes'⟩, hp'⟩ := exists_path_of_firstElement hf
  -- Both keywords are the last key of the path.
  have hkeyword : e.keyword = f.keyword := by
    rw [hp', List.map_append, List.map_append] at hp
    exact (List.cons.inj (List.append_inj' hp rfl).2).1.symm
  have hcompiled := hes.isCompiled (wellFormed_of_compile hc).2 e (by simp)
  have hcompiled' := hes'.isCompiled (wellFormed_of_compile hd).2 f (by simp)
  exact hcompiled.bare_eq hcompiled' hkeyword ht

/-- Some commands bring elements of the same traits as some others to every path that both reach and
that the tree does not have. -/
def Compatible (t : CommandTree (Handler σ)) (cs ds : List (Command σ)) : Prop :=
  ∀ p, t.lookup p = none → ∀ e ∈ firstElement cs p, ∀ f ∈ firstElement ds p, e.traits = f.traits

/-- Two paths of elements agree as long as they run together: there their elements have the same
traits. -/
def Agree : List Element → List Element → Prop
  | e :: es, f :: fs => e.keyword = f.keyword → e.traits = f.traits ∧ Agree es fs
  | _, _ => True

instance decidableAgree : DecidableRel Agree
  | [], _ => isTrue trivial
  | _ :: _, [] => isTrue trivial
  | e :: es, f :: fs =>
    have := decidableAgree es fs
    inferInstanceAs (Decidable (e.keyword = f.keyword → e.traits = f.traits ∧ Agree es fs))

theorem Agree.traits_eq {es es' gs gs' : List Element} {e f : Element}
    (h : Agree (es ++ e :: gs) (es' ++ f :: gs'))
    (hp : (es ++ [e]).map Element.keyword = (es' ++ [f]).map Element.keyword) :
    e.traits = f.traits := by
  induction es generalizing es' with
  | nil =>
    cases es' with
    | nil => exact (h (List.cons.inj hp).1).1
    | cons f' es' => simp at hp
  | cons e' es ih =>
    cases es' with
    | nil => simp at hp
    | cons f' es' =>
      obtain ⟨hk, hp⟩ := List.cons.inj hp
      exact ih (h hk).2 hp

/-- **Commands whose paths agree as long as they run together are compatible,** over any tree. -/
theorem compatible_of_agree {cs ds : List (Command σ)}
    (h : ∀ c ∈ cs, ∀ d ∈ ds, ∀ es ∈ c.paths, ∀ fs ∈ d.paths, Agree es fs)
    (t : CommandTree (Handler σ)) : Compatible t cs ds := by
  intro p _ e he f hf
  obtain ⟨c, hc, es, gs, hes, hp⟩ := exists_path_of_firstElement he
  obtain ⟨d, hd, es', gs', hes', hp'⟩ := exists_path_of_firstElement hf
  have hagree : Agree (es ++ e :: gs) (es' ++ f :: gs') :=
    h c hc d hd _ (hasPath_iff_mem.mp hes) _ (hasPath_iff_mem.mp hes')
  exact hagree.traits_eq (hp.symm.trans hp')

/-- No path of some commands is a path of others; the empty path does not count. -/
def Unrelated (cs ds : List (Command σ)) : Prop :=
  ∀ p ≠ [], ∀ c ∈ cs, c.Denotes p → ∀ d ∈ ds, ¬ d.Denotes p

instance decidableUnrelated (cs ds : List (Command σ)) : Decidable (Unrelated cs ds) :=
  decidable_of_iff (∀ c ∈ cs, ∀ es ∈ c.paths, es.map Element.keyword ≠ [] →
    ∀ d ∈ ds, ¬ d.Denotes (es.map Element.keyword)) (by
      constructor
      · rintro h p hp c hc ⟨es, hes, rfl⟩
        exact h c hc es (hasPath_iff_mem.mp hes) hp
      · intro h c hc es hes hp
        exact h _ hp c hc ⟨es, hasPath_iff_mem.mpr hes, rfl⟩)

end Command

/-! ## Two orders -/

namespace CommandTree

open Command

/-- The traits of the node at the end of a path of keys. -/
def traitsAt (t : CommandTree η) (p : List String) : Option (Bool × Bool) :=
  (t.lookup p).map fun n => n.element.traits

theorem Gains.traitsAt {t u : CommandTree (Handler σ)} {cs ds : List (Command σ)}
    (h : Gains t (cs ++ ds) u) {p : List String} (hp : p ≠ []) :
    u.traitsAt p = ((((t.labelAt p).map Label.element).or (firstElement cs p)).or
      (firstElement ds p)).map Element.traits := by
  have hlabel : u.traitsAt p = ((u.labelAt p).map Label.element).map Element.traits := by
    rw [CommandTree.traitsAt, CommandTree.labelAt, Option.map_map, Option.map_map]
    rfl
  rw [hlabel, h.labelAt p hp, List.flatMap_append, Label.all_append, ← Label.joined_assoc,
    Label.element_joined, Label.element_joined, map_element_all_labels, map_element_all_labels]

variable {t u v : CommandTree (Handler σ)} {cs ds : List (Command σ)}

/-- **Two orders give trees of the same traits just if the commands are compatible.** -/
theorem traitsAt_eq_iff_compatible (hu : Gains t (cs ++ ds) u) (hv : Gains t (ds ++ cs) v) :
    (∀ p, u.traitsAt p = v.traitsAt p) ↔ Compatible t cs ds := by
  have hor (o a b : Option Element) :
      ((o.or a).or b).map Element.traits = ((o.or b).or a).map Element.traits ↔
        (o = none → ∀ e ∈ a, ∀ f ∈ b, e.traits = f.traits) := by
    cases o <;> cases a <;> cases b <;> simp
  have hat (p : List String) : u.traitsAt p = v.traitsAt p ↔
      (t.lookup p = none → ∀ e ∈ firstElement cs p, ∀ f ∈ firstElement ds p,
        e.traits = f.traits) := by
    by_cases hp : p = []
    · subst hp
      -- No command changes the element at the top.
      have htop : u.element = v.element := hu.element.trans hv.element.symm
      simp [CommandTree.traitsAt, lookup, htop]
    · rw [hu.traitsAt hp, hv.traitsAt hp, hor, labelAt, Option.map_map, Option.map_eq_none_iff]
  exact forall_congr' hat

/-- **Below the root, the trees that come of two orders of compatible commands look the same to a
line,** if the commands have no path in common. -/
theorem bare_children_eq_of_compatible (hu : Gains t (cs ++ ds) u) (hv : Gains t (ds ++ cs) v)
    (hunrelated : Unrelated cs ds) (h : Compatible t cs ds) :
    u.children.bare = v.children.bare := by
  refine Children.bare_eq_of_labelAt hu.sound hv.sound fun p hp => ?_
  rw [hu.labelAt p hp, hv.labelAt p hp, List.flatMap_append, List.flatMap_append,
    Label.all_append, Label.all_append, ← Label.joined_assoc, ← Label.joined_assoc]
  refine Label.bare_joined_comm ?_ fun hnone l hl m hm => ?_
  · rw [handler_all_labels_eq_none hp, handler_all_labels_eq_none hp]
    by_cases hcs : ∃ c ∈ cs, c.Denotes p
    · obtain ⟨c, hc, hd⟩ := hcs
      exact .inr (hunrelated p hp c hc hd)
    · push Not at hcs
      exact .inl hcs
  · have he : firstElement cs p = some l.element := by
      rw [← map_element_all_labels, Option.mem_def.mp hl, Option.map_some]
    have hf : firstElement ds p = some m.element := by
      rw [← map_element_all_labels, Option.mem_def.mp hm, Option.map_some]
    exact bare_firstElement_eq he hf (h p (Option.map_eq_none_iff.mp hnone) _ he _ hf)

end CommandTree

end Console
