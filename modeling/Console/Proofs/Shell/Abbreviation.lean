import Console.Proofs.Shell.Loaded
import Console.Proofs.Tree.Accepts

/-!
# Abbreviated keywords

A fragment may stand for a keyword that it begins. It does so without doubt where it is no key
itself, no other child accepts it, and the node may not be repeated; the step is then the one that
the keyword has. Where more than one child accepts a fragment that is no key, there is one expansion
for each of them.

* `CommandTree.Clear`, **`stepsFor_of_clear`**: a fragment that abbreviates one key alone has the
  step of this key;
* `CommandTree.Abbreviates`, **`Abbreviates.expandFrom_eq`**: abbreviated keys are expanded as the
  keys;
* **`forall₂_expand_of_open`**: one expansion for each child that accepts the fragment;
* **`Shell.expand_abbreviated`**: both in a loaded shell.
-/

namespace Console

universe u

variable {η : Type u} {σ : Type}

namespace CommandTree

/-! ## Fragments that abbreviate one key -/

/-- Of all that `t` has, the fragment `f` may stand for the child with the key `k` only. -/
structure Clear (t : CommandTree η) (k f : String) : Prop where
  plain : t.element.isRecursive = false
  free : t.child? f = none
  only : ∀ d ∈ t.children.trees, d.keyword ≠ k → ¬ d.Accepts f

instance decidableClear (t : CommandTree η) (k f : String) : Decidable (t.Clear k f) :=
  decidable_of_iff (t.element.isRecursive = false ∧ (t.child? f).isNone = true ∧
    ∀ d ∈ t.children.trees, d.keyword ≠ k → ¬ d.Accepts f)
    ⟨fun ⟨hplain, hfree, honly⟩ => ⟨hplain, Option.isNone_iff_eq_none.mp hfree, honly⟩,
      fun h => ⟨h.plain, Option.isNone_iff_eq_none.mpr h.free, h.only⟩⟩

theorem Clear.open {t : CommandTree η} {k f : String} (h : t.Clear k f) : t.Open f :=
  ⟨h.free, fun hrec => absurd (h.plain.symm.trans hrec) Bool.false_ne_true⟩

/-- **A fragment that abbreviates one key alone** has the step of this key. -/
theorem stepsFor_of_clear {t c : CommandTree η} (ht : t.Sound) {k f : String}
    (hc : t.child? k = some c) (hf : f.toList <+: k.toList) (h : t.Clear k f) :
    t.stepsFor f = [⟨.word k, c, false⟩] := by
  obtain ⟨rfl, -⟩ := sound_child ht hc
  refine stepsFor_eq_singleton ht fun s => ?_
  rw [mem_stepsFor_of_open h.open]
  constructor
  · rintro ⟨hmem, hvalue, hstays⟩
    have hkey : s.node.keyword = c.keyword := by
      by_contra hne
      exact h.only s.node hmem hne (accepts_iff.mpr ⟨_, hvalue⟩)
    have hchild := (Children.mem_trees (sound_iff.mp ht)).mp hmem
    rw [hkey] at hchild
    obtain rfl : c = s.node := Option.some.inj (hc.symm.trans hchild)
    rw [parse_of_begins hf, Option.some.injEq] at hvalue
    rw [hvalue, ← hstays]
  · rintro rfl
    exact ⟨(Children.mem_trees (sound_iff.mp ht)).mpr hc, parse_of_begins hf, rfl⟩

/-- Fragments that begin the keys on the way to a node, each of which is a key typed in full or
abbreviates this key alone. -/
inductive Abbreviates : CommandTree η → List String → List String → Prop where
  | nil (t : CommandTree η) : Abbreviates t [] []
  | cons {t c : CommandTree η} {k f : String} {ks fs : List String}
    (child : t.child? k = some c) (begins : f.toList <+: k.toList)
    (clear : f ≠ k → t.Clear k f) (rest : Abbreviates c ks fs) :
    Abbreviates t (k :: ks) (f :: fs)

theorem Abbreviates.exists_lookup {t : CommandTree η} {ks fs : List String}
    (h : t.Abbreviates ks fs) : ∃ n, t.lookup ks = some n := by
  induction h with
  | nil t => exact ⟨t, rfl⟩
  | cons child begins clear rest ih =>
    obtain ⟨n, hn⟩ := ih
    exact ⟨n, Option.bind_eq_some_iff.mpr ⟨_, child, hn⟩⟩

/-- **Abbreviated keys are expanded as the keys.** -/
theorem Abbreviates.expandFrom_eq {t : CommandTree η} {ks fs : List String}
    (h : t.Abbreviates ks fs) (ht : t.Sound) (walk : Expansion η) (lookahead : Bool) :
    expandFrom t walk lookahead fs = expandFrom t walk lookahead ks := by
  induction h generalizing walk with
  | nil t => rfl
  | @cons t c k f ks fs child begins clear rest ih =>
    have hkey := stepsFor_of_child child
    have hstep : t.stepsFor f = [⟨.word k, c, false⟩] := by
      by_cases hfk : f = k
      · rw [hfk, hkey]
      · exact stepsFor_of_clear ht child begins (clear hfk)
    rw [expandFrom_cons_of_eq hstep, expandFrom_cons_of_eq hkey]
    exact ih (sound_child ht child).2 _

/-! ## Fragments that more than one child accepts -/

/-- The expansion `e` goes on from the walk `walk` to the child `c`, with the value that the
fragment has there. -/
def GoesOn (walk : Expansion η) (f : String) (c : CommandTree η) (e : Expansion η) : Prop :=
  ∃ v, c.parse f = some v ∧ e = walk.extend ⟨v, c, false⟩

theorem forall₂_filterMap_parse (walk : Expansion η) (f : String) (cs : List (CommandTree η)) :
    List.Forall₂ (GoesOn walk f) (cs.filter (·.Accepts f))
      ((cs.filterMap fun c => (c.parse f).map (⟨·, c, false⟩)).map walk.extend) := by
  induction cs with
  | nil => exact .nil
  | cons c cs ih =>
    cases hv : c.parse f with
    | none =>
      have hnot : ¬ c.Accepts f := by simp [accepts_iff, hv]
      rwa [List.filter_cons_of_neg (by simpa using hnot),
        List.filterMap_cons_none (by rw [hv, Option.map_none])]
    | some v =>
      have haccepts : c.Accepts f := accepts_iff.mpr ⟨v, hv⟩
      rw [List.filter_cons_of_pos (by simpa using haccepts),
        List.filterMap_cons_some (by rw [hv, Option.map_some]), List.map_cons]
      exact .cons ⟨v, hv, rfl⟩ ih

/-- **One expansion for each child that accepts the fragment,** if there are two or more of them.
What comes behind the fragment makes no difference. -/
theorem forall₂_expand_of_open {t : CommandTree η} {before : List String} {ss : List (Step η)}
    (hwalk : t.Walks before ss) {f : String} (h : ((Expansion.mk ss).reached t).Open f)
    (hmany : 2 ≤ (((Expansion.mk ss).reached t).children.trees.filter (·.Accepts f)).length)
    (after : List String) :
    List.Forall₂ (GoesOn ⟨ss⟩ f)
      (((Expansion.mk ss).reached t).children.trees.filter (·.Accepts f))
      (expand t (before ++ f :: after) false) := by
  have hall := forall₂_filterMap_parse ⟨ss⟩ f ((Expansion.mk ss).reached t).children.trees
  rw [← stepsFor_of_open h] at hall
  have hcount := hall.length_eq
  rw [List.length_map] at hcount
  rwa [expand_of_last hwalk (by omega)]

end CommandTree

namespace Shell

/-- **Abbreviations in a loaded shell.** Fragments that abbreviate the keys to a node are expanded
as these keys: the only expansion has the keys as values and goes through the nodes that are found
by the first of them. Let a walk lead to a node that may not be repeated. If at least two children
of it accept the next fragment, which is no key, then the expansions, whatever comes behind, are one
for each of these children, and go on from the walk to this child. -/
theorem expand_abbreviated {prompt : String} {sets : List (CommandSet σ)} {s : Shell σ}
    (hs : Shell.LoadedWith prompt sets s) :
    (∀ ks fs, s.root.Abbreviates ks fs →
      expand s.root fs false = expand s.root ks false ∧
      (ks ≠ [] → ∃ e, expand s.root fs false = [e] ∧ e.values = ks.map .word ∧
        e.nodes.length = ks.length ∧
        ∀ i < ks.length, e.nodes[i]? = s.root.lookup (ks.take (i + 1)))) ∧
    ∀ before ss, s.root.Walks before ss → ∀ n, (Expansion.mk ss).reached s.root = n →
      n.element.isRecursive = false → ∀ f, n.child? f = none →
        2 ≤ (n.children.trees.filter (·.Accepts f)).length →
          ∀ after, List.Forall₂ (CommandTree.GoesOn ⟨ss⟩ f)
            (n.children.trees.filter (·.Accepts f))
            (expand s.root (before ++ f :: after) false) := by
  have hsound := hs.gains.sound
  refine ⟨fun ks fs h => ?_, ?_⟩
  · have heq : expand s.root fs false = expand s.root ks false := h.expandFrom_eq hsound _ _
    refine ⟨heq, fun hks => ?_⟩
    obtain ⟨n, hn⟩ := h.exists_lookup
    obtain ⟨e, he, hvalues, hlength, hnodes, -⟩ := CommandTree.exists_expand_of_lookup hn hks
    exact ⟨e, heq.trans he, hvalues, hlength, hnodes⟩
  · rintro before ss hwalk n rfl hplain f hfree hmany after
    have hopen : ((Expansion.mk ss).reached s.root).Open f :=
      ⟨hfree, fun hrec => absurd (hplain.symm.trans hrec) Bool.false_ne_true⟩
    exact CommandTree.forall₂_expand_of_open hwalk hopen hmany after

/-- Keywords that begin other keywords, beside a place that takes any word. -/
def showLines : CommandSet Unit :=
  .ofList [.idle "show (ip|ipv6|version)" false 0, .idle "shut IFNAME" false 1]

/-- The shell with these commands. -/
def ofShowLines : Shell Unit := ((Shell.empty ">").load showLines ()).shell

/-- The key `ip` begins another key and has to be typed in full; `i` stands for both. -/
theorem expand_abbreviated_show :
    Shell.LoadedWith ">" [showLines] ofShowLines ∧
      ofShowLines.root.Abbreviates ["show", "ip"] ["sho", "ip"] ∧
      ofShowLines.root.Abbreviates ["show", "version"] ["show", "v"] ∧
      expand ofShowLines.root ["sho", "ip"] false = expand ofShowLines.root ["show", "ip"] false ∧
      (∃ e, expand ofShowLines.root ["show", "v"] false = [e] ∧
        e.values = [.word "show", .word "version"]) ∧
      ∃ n ss, ofShowLines.root.Walks ["show"] ss ∧
        (Expansion.mk ss).reached ofShowLines.root = n ∧
        (n.children.trees.filter (·.Accepts "i")).map CommandTree.keyword = ["ip", "ipv6"] ∧
        List.Forall₂ (CommandTree.GoesOn ⟨ss⟩ "i") (n.children.trees.filter (·.Accepts "i"))
          (expand ofShowLines.root ["show", "i", "x"] false) := by
  have hs : Shell.LoadedWith ">" [showLines] ofShowLines := .load _ () .empty (by decide +kernel)
  have hshow : ofShowLines.root.Clear "show" "sho" := by decide +kernel
  have hbelow : (ofShowLines.root.child? "show").map (fun c => ((c.child? "ip").isSome,
      (c.child? "version").isSome, decide (c.Clear "version" "v"), (c.child? "i").isNone,
      (c.children.trees.filter (·.Accepts "i")).map CommandTree.keyword)) =
        some (true, true, true, true, ["ip", "ipv6"]) := by
    decide +kernel
  obtain ⟨c, hc, hbelow⟩ := Option.map_eq_some_iff.mp hbelow
  simp only [Prod.mk.injEq, decide_eq_true_eq, Option.isNone_iff_eq_none] at hbelow
  obtain ⟨hip, hversion, hv, hfree, hrivals⟩ := hbelow
  obtain ⟨d, hd⟩ := Option.isSome_iff_exists.mp hip
  obtain ⟨d', hd'⟩ := Option.isSome_iff_exists.mp hversion
  have hwalk : ofShowLines.root.Walks ["show"] [⟨.word "show", c, false⟩] :=
    .cons (CommandTree.stepsFor_of_child hc) (.nil c)
  have hfull : ofShowLines.root.Abbreviates ["show", "ip"] ["sho", "ip"] :=
    .cons hc (by decide +kernel) (fun _ => hshow)
      (.cons hd List.prefix_rfl (fun h => absurd rfl h) (.nil d))
  have hshort : ofShowLines.root.Abbreviates ["show", "version"] ["show", "v"] :=
    .cons hc List.prefix_rfl (fun h => absurd rfl h)
      (.cons hd' (by decide +kernel) (fun _ => hv) (.nil d'))
  have hmany : 2 ≤ (c.children.trees.filter (·.Accepts "i")).length := by
    have hlength := congrArg List.length hrivals
    rw [List.length_map] at hlength
    exact hlength ▸ Nat.le_refl 2
  obtain ⟨habbreviated, hambiguous⟩ := expand_abbreviated hs
  obtain ⟨e, he, hvalues, -⟩ := (habbreviated _ _ hshort).2 (List.cons_ne_nil _ _)
  exact ⟨hs, hfull, hshort, (habbreviated _ _ hfull).1, ⟨e, he, hvalues⟩, c, _, hwalk, rfl,
    hrivals, hambiguous _ _ hwalk c rfl hv.plain "i" hfree hmany ["x"]⟩

end Shell

end Console
