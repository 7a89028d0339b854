import Console.Proofs.Shell.Lookahead
import Console.Proofs.Text.Words
import Console.Proofs.Tree.Follows
import Console.Proofs.Tree.Trail
import Console.Shell.Assistant

/-!
# What completion offers

The word being typed stands behind some fragments. If these have one reading, or if there are none,
completion offers the keywords that the word may stand for at the node that they lead to, without
typed places and hidden nodes. Otherwise it offers nothing.

* `CommandTree.Offers`: a keyword that a fragment may stand for at a node; `Offers.begins`,
  `Offers.exists_expand`: the fragment begins it, and it has one reading in its place;
* `Shell.Awaits`: the fragments before the word being typed;
* **`Awaits.exists_expand_iff`**: the nodes at the place of this word;
* `mem_complete_iff`, `complete_eq_nil_of_awaits`: what is offered, by the nodes at its place, and
  where nothing is;
* **`Shell.complete_offered`**: what completion offers in a loaded shell.
-/

namespace Console

universe u

variable {η : Type u} {σ : Type}

namespace Expansion

theorem getElem?_nodes_extend (e : Expansion η) (s : Step η) :
    (e.extend s).nodes[e.steps.length]? = some s.node := by
  simp [nodes, extend]

theorem getElem?_nodes_eq_none {e : Expansion η} {i : ℕ} (h : e.steps.length ≤ i) :
    e.nodes[i]? = none := by
  rw [List.getElem?_eq_none_iff, nodes, List.length_map]
  exact h

end Expansion

namespace CommandTree

/-! ## The words that a node offers -/

/-- The fragment `f` may lead from this node to a visible node with the keyword `k`, which is not a
typed place. -/
def Offers (t : CommandTree η) (f k : String) : Prop :=
  ∃ s ∈ t.stepsFor f,
    s.node.keyword = k ∧ s.node.element.converter = none ∧ s.node.hidden = false

theorem Offers.begins {t : CommandTree η} (ht : t.Sound) {f k : String} (h : t.Offers f k) :
    f.toList <+: k.toList := by
  obtain ⟨s, hs, rfl, hword, -⟩ := h
  by_contra hbegins
  obtain ⟨c, hc, -⟩ := (from_of_mem_stepsFor ht hs).converted hbegins
  rw [hword] at hc
  cases hc

theorem exists_stepsFor_keyword {t : CommandTree η} (ht : t.Sound) {f : String} {s : Step η}
    (h : s ∈ t.stepsFor f) : ∃ s', t.stepsFor s.node.keyword = [s'] := by
  cases hc : t.child? s.node.keyword with
  | some c => exact ⟨_, stepsFor_of_child hc⟩
  | none =>
    rcases stays_or_child_of_mem_stepsFor ht h with ⟨-, hnode, hrec⟩ | ⟨-, hchild⟩
    · rw [hnode] at hc ⊢
      exact ⟨_, stepsFor_of_self hc hrec t.parse_keyword⟩
    · rw [hchild] at hc
      cases hc

theorem Offers.exists_expand {t : CommandTree η} (ht : t.Sound) {gs : List String}
    {e : Expansion η} (he : t.Resolves gs e) {f k : String} (h : (e.reached t).Offers f k) :
    ∃ d, expand t (gs ++ [k]) false = [d] := by
  obtain ⟨s, hs, rfl, -⟩ := h
  obtain ⟨s', hs'⟩ := exists_stepsFor_keyword (he.walks.sound_reached ht) hs
  exact ⟨e.extend s', by rw [expand_of_last he.walks fun _ => rfl, hs', List.map_singleton]⟩

end CommandTree

/-! ## The place of the word being typed -/

open Text

/-- Of the fragments of a line, those before the word being typed, and what has been typed of it: a
blank word has not begun, and any other one is the last fragment. -/
inductive Shell.Awaits (word : String) : List String → List String → String → Prop where
  | next (blank : ∀ c ∈ word.toList, isBlank c = true) (fs : List String) : Awaits word fs fs ""
  | last (typed : ¬ ∀ c ∈ word.toList, isBlank c = true) (gs : List String) (f : String) :
    Awaits word (gs ++ [f]) gs f

theorem isEmpty_trim_eq_true {word : String} (h : ∀ c ∈ word.toList, isBlank c = true) :
    (trim word).isEmpty = true := by
  rw [trim_eq_empty.mpr h]
  rfl

theorem isEmpty_trim_eq_false {word : String} (h : ¬ ∀ c ∈ word.toList, isBlank c = true) :
    (trim word).isEmpty = false := by
  rw [← Bool.not_eq_true, String.isEmpty_iff, trim_eq_empty]
  exact h

namespace Shell.Awaits

variable {word f : String} {fs gs : List String}

/-- **The nodes at the place of the word,** behind fragments with one reading, are those that what
has been typed of it may lead to. -/
theorem exists_expand_iff (h : Awaits word fs gs f) {t : CommandTree η} {e : Expansion η}
    (he : t.Resolves gs e) {n : CommandTree η} :
    (∃ d ∈ expand t fs (trim word).isEmpty, d.nodes[gs.length]? = some n) ↔
      ∃ s ∈ (e.reached t).stepsFor f, s.node = n := by
  have hplace (s : Step η) : (e.extend s).nodes[gs.length]? = some s.node := by
    rw [← he.walks.length_eq]
    exact e.getElem?_nodes_extend s
  have hself : e.nodes[gs.length]? = none :=
    Expansion.getElem?_nodes_eq_none he.walks.length_eq.le
  cases h with
  | next blank =>
    rw [isEmpty_trim_eq_true blank, he.expand_lookahead]
    constructor
    · rintro ⟨d, hd, hn⟩
      rcases List.mem_append.mp hd with hd | hd
      · obtain ⟨s, hs, rfl⟩ := List.mem_map.mp hd
        exact ⟨s, hs, Option.some.inj ((hplace s).symm.trans hn)⟩
      · split_ifs at hd
        · rw [List.mem_singleton.mp hd, hself] at hn
          cases hn
        · cases hd
    · rintro ⟨s, hs, rfl⟩
      exact ⟨e.extend s, List.mem_append_left _ (List.mem_map_of_mem hs), hplace s⟩
  | last typed =>
    rw [isEmpty_trim_eq_false typed, CommandTree.expand_of_last he.walks fun _ => rfl]
    constructor
    · rintro ⟨d, hd, hn⟩
      obtain ⟨s, hs, rfl⟩ := List.mem_map.mp hd
      exact ⟨s, hs, Option.some.inj ((hplace s).symm.trans hn)⟩
    · rintro ⟨s, hs, rfl⟩
      exact ⟨e.extend s, List.mem_map_of_mem hs, hplace s⟩

theorem getElem?_nodes_eq_none (h : Awaits word fs gs f) {t : CommandTree η}
    (hgs : ∀ e, ¬ t.Resolves gs e) {d : Expansion η}
    (hd : d ∈ expand t fs (trim word).isEmpty) : d.nodes[gs.length]? = none := by
  have hne : gs ≠ [] := fun hnil => hgs .start (.inl ⟨hnil, rfl⟩)
  have hmany : (expand t gs false).length ≠ 1 := fun hone => by
    obtain ⟨e, he⟩ := List.length_eq_one_iff.mp hone
    exact hgs e (.inr he)
  have hend : expand t fs (trim word).isEmpty = expand t gs false := by
    cases h with
    | next blank =>
      have hread := CommandTree.expand_append_of_ne hne hmany [] true
      rwa [List.append_nil, ← isEmpty_trim_eq_true blank] at hread
    | last typed => exact CommandTree.expand_append_of_ne hne hmany [f] _
  rw [hend] at hd
  exact Expansion.getElem?_nodes_eq_none (CommandTree.leads_of_mem_expand hd).2

end Shell.Awaits

namespace Shell

/-! ## Completion -/

theorem pairwise_complete (s : Shell σ) (line word : String) :
    (s.complete line word).Pairwise (· < ·) := by
  unfold complete
  split
  · exact .nil
  · dsimp only
    split
    · exact .nil
    · exact pairwise_ascending _

theorem complete_eq_nil_of_parse {s : Shell σ} {line : String} (h : parse line = none)
    (word : String) : s.complete line word = [] := by
  rw [complete, h]

theorem mem_complete_iff {s : Shell σ} {line word f : String} {fs gs : List String}
    (hparse : parse line = some fs) (h : Awaits word fs gs f) {k : String} :
    k ∈ s.complete line word ↔
      ∃ n, (∃ d ∈ expand s.root fs (trim word).isEmpty, d.nodes[gs.length]? = some n) ∧
        n.keyword = k ∧ n.element.converter = none ∧ n.hidden = false := by
  have hplace : s.complete line word = ascending ((((expand s.root fs
      (trim word).isEmpty).filterMap fun d => d.nodes[gs.length]?).filter fun n =>
        n.element.converter.isNone && !n.hidden).map CommandTree.keyword) := by
    rw [complete, hparse]
    cases h with
    | next blank => simp [isEmpty_trim_eq_true blank]
    | last typed => simp [isEmpty_trim_eq_false typed]
  rw [hplace, mem_ascending]
  simp only [List.mem_map, List.mem_filter, List.mem_filterMap, Bool.and_eq_true,
    Option.isNone_iff_eq_none, Bool.not_eq_true']
  exact exists_congr fun n => and_assoc.trans (and_congr_right fun _ => and_comm)

theorem complete_eq_nil_of_awaits {s : Shell σ} {line word f : String} {fs gs : List String}
    (hparse : parse line = some fs) (h : Awaits word fs gs f)
    (hgs : ∀ e, ¬ s.root.Resolves gs e) : s.complete line word = [] := by
  refine List.eq_nil_iff_forall_not_mem.mpr fun k hk => ?_
  obtain ⟨n, ⟨d, hd, hn⟩, -⟩ := (mem_complete_iff hparse h).mp hk
  rw [h.getElem?_nodes_eq_none hgs hd] at hn
  cases hn

theorem complete_nil_of_not_awaits {s : Shell σ} {line word : String} {fs : List String}
    (hparse : parse line = some fs) (h : ∀ gs f, ¬ Awaits word fs gs f) :
    s.complete line word = [] := by
  have htyped : ¬ ∀ c ∈ word.toList, isBlank c = true := fun blank => h fs "" (.next blank fs)
  obtain rfl : fs = [] := by
    rcases List.eq_nil_or_concat' fs with hnil | ⟨gs, f, rfl⟩
    · exact hnil
    · exact absurd (.last htyped gs f) (h gs f)
  rw [complete, hparse]
  simp [isEmpty_trim_eq_false htyped]

/-- **What completion offers in a loaded shell.** Where the fragments before the word being typed
have one reading, or where there are none, these are just the keywords of the visible nodes without
converter that the word may lead to, in strictly ascending order. The word begins each of them, and
each has one reading in its place. Otherwise nothing is offered. -/
theorem complete_offered {prompt : String} {sets : List (CommandSet σ)} {s : Shell σ}
    (hs : Shell.LoadedWith prompt sets s) (line word : String) :
    (s.complete line word).Pairwise (· < ·) ∧
      (parse line = none → s.complete line word = []) ∧
      ∀ fs, parse line = some fs →
        (∀ gs f e, Awaits word fs gs f → s.root.Resolves gs e →
          (∀ k, k ∈ s.complete line word ↔ (e.reached s.root).Offers f k) ∧
          ∀ k ∈ s.complete line word,
            f.toList <+: k.toList ∧ ∃ d, expand s.root (gs ++ [k]) false = [d]) ∧
        ((∀ gs f e, Awaits word fs gs f → ¬ s.root.Resolves gs e) →
          s.complete line word = []) := by
  have hsound := hs.gains.sound
  refine ⟨pairwise_complete s line word, fun hnone => complete_eq_nil_of_parse hnone word,
    fun fs hparse => ⟨fun gs f e hawaits he => ?_, fun hnone => ?_⟩⟩
  · have hmem (k : String) : k ∈ s.complete line word ↔ (e.reached s.root).Offers f k := by
      rw [mem_complete_iff hparse hawaits]
      simp only [hawaits.exists_expand_iff he]
      constructor
      · rintro ⟨n, ⟨step, hstep, rfl⟩, hn⟩
        exact ⟨step, hstep, hn⟩
      · rintro ⟨step, hstep, hn⟩
        exact ⟨step.node, ⟨step, hstep, rfl⟩, hn⟩
    refine ⟨hmem, fun k hk => ?_⟩
    have hoffers := (hmem k).mp hk
    exact ⟨hoffers.begins (he.walks.sound_reached hsound), hoffers.exists_expand hsound he⟩
  · by_cases hplace : ∃ gs f, Awaits word fs gs f
    · obtain ⟨gs, f, hawaits⟩ := hplace
      exact complete_eq_nil_of_awaits hparse hawaits fun e => hnone gs f e hawaits
    · exact complete_nil_of_not_awaits hparse fun gs f h => hplace ⟨gs, f, h⟩

/-- Two keywords that begin alike, a hidden one, and a place that takes any word. -/
def showAndHide : CommandSet Unit :=
  .ofList [.idle "show (ip|ipv6|NAME)" false 0, .idle "show iv" true 1]

/-- The shell with these commands. -/
def ofShowAndHide : Shell Unit := ((Shell.empty ">").load showAndHide ()).shell

/-- Two keywords are offered for `i`, each of which may be typed. -/
theorem complete_offered_show :
    Shell.LoadedWith ">" [showAndHide] ofShowAndHide ∧ parse "sh i" = some ["sh", "i"] ∧
      ofShowAndHide.complete "sh i" "i" = ["ip", "ipv6"] ∧
      ∃ e, ofShowAndHide.root.Resolves ["sh"] e ∧ (e.reached ofShowAndHide.root).Offers "i" "ip" ∧
        ∀ k ∈ ["ip", "ipv6"], ∃ d, expand ofShowAndHide.root (["sh"] ++ [k]) false = [d] := by
  have hs : Shell.LoadedWith ">" [showAndHide] ofShowAndHide :=
    .load _ () .empty (by decide +kernel)
  have hparse : parse "sh i" = some ["sh", "i"] := by decide +kernel
  have hcomplete : ofShowAndHide.complete "sh i" "i" = ["ip", "ipv6"] := by decide +kernel
  have htyped : ¬ ∀ c ∈ "i".toList, isBlank c = true := fun h =>
    absurd (h 'i' (by decide +kernel)) (by decide +kernel)
  have hone : (expand ofShowAndHide.root ["sh"] false).length = 1 := by decide +kernel
  obtain ⟨e, he⟩ := List.length_eq_one_iff.mp hone
  obtain ⟨-, -, hoffered⟩ := complete_offered hs "sh i" "i"
  obtain ⟨hmem, hplaced⟩ := (hoffered _ hparse).1 ["sh"] "i" e (.last htyped ["sh"] "i") (.inr he)
  rw [hcomplete] at hmem hplaced
  exact ⟨hs, hparse, hcomplete, e, .inr he, (hmem "ip").mp List.mem_cons_self,
    fun k hk => (hplaced k hk).2⟩

/-- Nothing is offered behind an ambiguous fragment, or on a line that is a comment. -/
example : ofShowAndHide.complete "sh i " "" = [] ∧ ofShowAndHide.complete "# sh" "sh" = [] := by
  decide +kernel

end Shell

end Console
