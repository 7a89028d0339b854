import Console.Proofs.Tree.Label
import Console.Proofs.Tree.Splice
import Mathlib.Data.List.Induction

/-!
# What building leaves at each path

* `Token.Spells`, `Token.Reaches`: the paths of some tokens, as keywords, and their prefixes;
* `Token.labels`: the labels that a command with these tokens brings to a path of keys;
* **`labels_ne_nil`**, **`handler_labels`**: it brings some where it reaches the path, and its
  handler where it spells the path;
* **`build_leaves`**: what stands at each path of a tree to which the command has been added.
-/

namespace Console

universe u

variable {η : Type u}

namespace Token

/-- These keywords are a path of the tokens. -/
def Spells (tokens : List Token) (p : List String) : Prop :=
  ∃ es, Denotes tokens es ∧ es.map Element.keyword = p

/-- A path of the tokens begins with these keywords. -/
def Reaches (tokens : List Token) (p : List String) : Prop := ∃ q, Spells tokens q ∧ p <+: q

instance decidableSpells (tokens : List Token) (p : List String) : Decidable (Spells tokens p) :=
  decidable_of_iff (∃ es ∈ paths tokens, es.map Element.keyword = p) (by
    simp only [Spells, mem_paths])

instance decidableReaches (tokens : List Token) (p : List String) :
    Decidable (Reaches tokens p) :=
  decidable_of_iff (∃ es ∈ paths tokens, p <+: es.map Element.keyword) (by
    simp only [Reaches, Spells, mem_paths, exists_exists_and_eq_and])

/-- The labels that a command with these tokens brings to a path of keys, one for each of its own
paths that leads there. -/
def labels (tokens : List Token) (handler : η) (hidden : Bool) (p : List String) : List (Label η) :=
  (paths tokens).filterMap (Label.along handler hidden · p)

variable {tokens : List Token} {handler : η} {hidden : Bool} {p : List String}

theorem mem_labels {l : Label η} :
    l ∈ labels tokens handler hidden p ↔ ∃ fs e gs, Denotes tokens (fs ++ e :: gs) ∧
      p = (fs ++ [e]).map Element.keyword ∧
      l = ⟨e, if gs.isEmpty then some handler else none, hidden⟩ := by
  rw [labels, List.mem_filterMap]
  constructor
  · rintro ⟨es, hes, hl⟩
    obtain ⟨fs, e, gs, rfl, hp, rfl⟩ := Label.along_eq_some.mp hl
    exact ⟨fs, e, gs, mem_paths.mp hes, hp, rfl⟩
  · rintro ⟨fs, e, gs, hes, hp, rfl⟩
    exact ⟨_, mem_paths.mpr hes, Label.along_eq_some.mpr ⟨fs, e, gs, rfl, hp, rfl⟩⟩

theorem hidden_of_mem_labels {l : Label η} (h : l ∈ labels tokens handler hidden p) :
    l.hidden = hidden := by
  obtain ⟨fs, e, gs, -, -, rfl⟩ := mem_labels.mp h
  rfl

/-- **Tokens bring labels to the paths that they reach.** -/
theorem labels_ne_nil (hp : p ≠ []) : labels tokens handler hidden p ≠ [] ↔ Reaches tokens p := by
  rw [List.ne_nil_iff_exists_cons]
  constructor
  · rintro ⟨l, ls, hl⟩
    obtain ⟨fs, e, gs, hes, rfl, -⟩ := mem_labels.mp (hl ▸ List.mem_cons_self)
    exact ⟨_, ⟨_, hes, rfl⟩, by simp [List.map_append]⟩
  · rintro ⟨_, ⟨es, hes, rfl⟩, hpre⟩
    obtain ⟨fs, hfs, hp'⟩ := List.prefix_map_iff.mp hpre
    obtain ⟨gs, rfl⟩ := hfs
    obtain ⟨init, e, rfl⟩ : ∃ init e, fs = init ++ [e] :=
      (List.eq_nil_or_concat' fs).resolve_left fun h => hp (by rw [hp', h]; rfl)
    rw [List.append_assoc] at hes
    have hm : _ ∈ labels tokens handler hidden p := mem_labels.mpr ⟨init, e, gs, hes, hp', rfl⟩
    exact List.exists_cons_of_ne_nil (List.ne_nil_of_mem hm)

/-- **Tokens bring their handler to the paths that they spell.** -/
theorem handler_labels (hp : p ≠ []) {h : η} :
    (Label.all (labels tokens handler hidden p)).bind Label.handler = some h ↔
      Spells tokens p ∧ handler = h := by
  rw [Label.handler_all]
  constructor
  · intro hs
    obtain ⟨l, hl, hh⟩ := List.exists_of_findSome?_eq_some hs
    obtain ⟨fs, e, gs, hes, rfl, rfl⟩ := mem_labels.mp (List.mem_reverse.mp hl)
    cases gs with
    | nil => exact ⟨⟨_, hes, rfl⟩, Option.some.inj hh⟩
    | cons f gs => cases hh
  · rintro ⟨⟨es, hes, hkeys⟩, rfl⟩
    obtain ⟨init, e, rfl⟩ : ∃ init e, es = init ++ [e] :=
      (List.eq_nil_or_concat' es).resolve_left fun h => hp (by rw [← hkeys, h]; rfl)
    have hm : (⟨e, some handler, hidden⟩ : Label η) ∈ (labels tokens handler hidden p).reverse :=
      List.mem_reverse.mpr (mem_labels.mpr ⟨init, e, [], hes, hkeys.symm, rfl⟩)
    cases hh : (labels tokens handler hidden p).reverse.findSome? Label.handler with
    | none => exact absurd (List.findSome?_eq_none_iff.mp hh _ hm) (Option.some_ne_none _)
    | some h =>
      -- No label of the tokens has another handler.
      obtain ⟨l, hl, hlh⟩ := List.exists_of_findSome?_eq_some hh
      obtain ⟨fs, f, gs, -, -, rfl⟩ := mem_labels.mp (List.mem_reverse.mp hl)
      cases gs with
      | nil => exact hlh.symm
      | cons g gs => cases hlh

theorem handler_labels_eq_none (hp : p ≠ []) :
    (Label.all (labels tokens handler hidden p)).bind Label.handler = none ↔
      ¬ Spells tokens p := by
  rw [Option.eq_none_iff_forall_ne_some]
  simp only [ne_eq, handler_labels hp, not_and]
  exact ⟨fun h hs => h handler hs rfl, fun h _ hs => absurd hs h⟩

theorem spells_nil : Spells tokens [] ↔ [] ∈ paths tokens := by
  simp only [Spells, List.map_eq_nil_iff, exists_eq_right, mem_paths]

end Token

namespace CommandTree

open Token

theorem hidden_build (tokens : List Token) (handler : η) (hidden : Bool) (t : CommandTree η) :
    (t.build tokens handler hidden).hidden = t.hidden := by
  unfold build
  induction paths tokens generalizing t with
  | nil => rfl
  | cons es paths ih => rw [List.foldl_cons, ih, hidden_attach]

theorem handler_build (tokens : List Token) (handler : η) (hidden : Bool) (t : CommandTree η) :
    (t.build tokens handler hidden).handler =
      if [] ∈ paths tokens then some handler else t.handler := by
  unfold build
  induction paths tokens using List.reverseRecOn with
  | nil => rfl
  | append_singleton ps es ih =>
    rw [List.foldl_append]
    generalize ps.foldl (fun t path => attach handler hidden path t) t = s at ih ⊢
    obtain ⟨f, h, old, cs⟩ := s
    cases es with
    | nil => simp [attach, CommandTree.handler]
    | cons e es => simpa [attach, CommandTree.handler] using ih

/-- What a command with these tokens leaves at a path, where a tree had one node before and has
another after it, or none. -/
structure Leaves (tokens : List Token) (handler : η) (hidden : Bool) (p : List String)
    (before after : Option (CommandTree η)) : Prop where
  /-- Nodes are added where a path of the tokens leads. -/
  exists_iff : after.isSome = true ↔ before.isSome = true ∨ Reaches tokens p
  /-- The handler stands at the end of each path, -/
  handler_spelled : Spells tokens p → after.bind CommandTree.handler = some handler
  /-- and no other handler changes. -/
  handler_other : ¬ Spells tokens p →
    after.bind CommandTree.handler = before.bind CommandTree.handler
  /-- A node that was there keeps its element. -/
  element_kept : ∀ m ∈ before, ∀ n ∈ after, n.element = m.element
  /-- It stays hidden only if the command is hidden too, wherever a path leads through it. -/
  hidden_reached : p ≠ [] → Reaches tokens p →
    ∀ m ∈ before, ∀ n ∈ after, n.hidden = (m.hidden && hidden)
  hidden_other : ¬ Reaches tokens p → ∀ m ∈ before, ∀ n ∈ after, n.hidden = m.hidden
  /-- A new node is hidden as the command is. -/
  hidden_new : before = none → ∀ n ∈ after, n.hidden = hidden

theorem leaves_nil (tokens : List Token) (handler : η) (hidden : Bool) (t : CommandTree η) :
    Leaves tokens handler hidden [] (some t) (some (t.build tokens handler hidden)) where
  exists_iff := by simp
  handler_spelled hp := by
    rw [Option.bind_some, handler_build, if_pos (spells_nil.mp hp)]
  handler_other hp := by
    rw [Option.bind_some, handler_build, if_neg (mt spells_nil.mpr hp), Option.bind_some]
  element_kept := by
    rintro m ⟨⟩ n ⟨⟩
    exact element_build tokens handler hidden t
  hidden_reached hp := absurd rfl hp
  hidden_other _ := by
    rintro m ⟨⟩ n ⟨⟩
    exact hidden_build tokens handler hidden t
  hidden_new := nofun

theorem handler_of_label {o : Option (CommandTree η)} :
    (o.map label).bind Label.handler = o.bind CommandTree.handler := by
  cases o <;> rfl

/-- Below the top, a command unites its own labels with the one that was there. -/
theorem leaves_of_ne_nil (tokens : List Token) (handler : η) (hidden : Bool) (t : CommandTree η)
    {p : List String} (hp : p ≠ []) :
    Leaves tokens handler hidden p (t.lookup p) ((t.build tokens handler hidden).lookup p) := by
  have hlabel := labelAt_build tokens handler hidden t hp
  have hreach : (Label.all (labels tokens handler hidden p)).isSome = true ↔ Reaches tokens p := by
    rw [Option.isSome_iff_ne_none, ne_eq, Label.all_eq_none]
    exact labels_ne_nil hp
  have hspelled : Spells tokens p →
      (Label.all (labels tokens handler hidden p)).bind Label.handler = some handler :=
    fun hs => (handler_labels hp).mpr ⟨hs, rfl⟩
  have hother : ¬ Spells tokens p →
      (Label.all (labels tokens handler hidden p)).bind Label.handler = none :=
    (handler_labels_eq_none hp).mpr
  have hhidden : ∀ l, Label.all (labels tokens handler hidden p) = some l → l.hidden = hidden :=
    fun l hl => Label.hidden_all_of_forall hl fun _ => hidden_of_mem_labels
  rw [← labels, labelAt, labelAt] at hlabel
  generalize Label.all (labels tokens handler hidden p) = brought at *
  generalize t.lookup p = before at *
  generalize (t.build tokens handler hidden).lookup p = after at *
  have hhandler : after.bind CommandTree.handler =
      (brought.bind Label.handler).or (before.bind CommandTree.handler) := by
    rw [← handler_of_label, hlabel, Label.handler_joined, handler_of_label]
  have hunion : ∀ m ∈ before, ∀ n ∈ after,
      some n.label = Label.joined (some m.label) brought := by
    rintro m ⟨⟩ n ⟨⟩
    exact hlabel
  constructor
  case exists_iff =>
    rw [← hreach, ← Option.isSome_map, hlabel, Label.isSome_joined, Option.isSome_map]
  case handler_spelled => exact fun hs => by rw [hhandler, hspelled hs, Option.some_or]
  case handler_other => exact fun hs => by rw [hhandler, hother hs, Option.none_or]
  case element_kept =>
    intro m hm n hn
    have h := hunion m hm n hn
    cases brought with
    | none => exact congrArg Label.element (Option.some.inj h)
    | some l => exact congrArg Label.element (Option.some.inj h)
  case hidden_reached =>
    intro _ hr m hm n hn
    obtain ⟨l, rfl⟩ := Option.isSome_iff_exists.mp (hreach.mpr hr)
    have h := congrArg Label.hidden (Option.some.inj (hunion m hm n hn))
    rw [← hhidden l rfl]
    exact h
  case hidden_other =>
    intro hr m hm n hn
    obtain rfl : brought = none := by simpa using mt hreach.mp hr
    exact congrArg Label.hidden (Option.some.inj (hunion m hm n hn))
  case hidden_new =>
    rintro rfl n ⟨⟩
    exact hhidden n.label ((Label.joined_none_left brought).symm.trans hlabel.symm)

/-- **What stands at each path of a tree to which a command has been added,** along its paths or
token by token. -/
theorem build_leaves (t : CommandTree η) {tokens : List Token} (h : Branching tokens) (handler : η)
    (hidden : Bool) :
    splice handler hidden tokens t = t.build tokens handler hidden ∧
      ∀ p, Leaves tokens handler hidden p (t.lookup p)
        ((t.build tokens handler hidden).lookup p) := by
  refine ⟨splice_eq_build h handler hidden t, fun p => ?_⟩
  by_cases hp : p = []
  · subst hp
    exact leaves_nil tokens handler hidden t
  · exact leaves_of_ne_nil tokens handler hidden t hp

/-- A hidden command of a tree stays hidden when one that is not hidden is added beside it, in both
orders of a permutation and by another branch. The nodes that they share are then shown. -/
theorem build_leaves_show :
    let word (argspec : String) : Token := .element (.ofArgspec argspec "" false)
    let tokens : List Token := [word "show", .group .alternation
      [[word "ip", .group .permutation [[word "a"], [word "b"]]], [word ".WORD"]]]
    let t : CommandTree ℕ := attach 0 true (["show", "ip", "old"].map (.ofArgspec · "" false)) root
    let u := t.build tokens 1 false
    Branching tokens ∧ splice 1 false tokens t = u ∧
      (u.lookup ["show", "ip", "b", "a"]).bind CommandTree.handler = some 1 ∧
      (u.lookup ["show", "ip"]).bind CommandTree.handler = none ∧
      (u.lookup ["show", "ip"]).isSome = true ∧
      (∀ n ∈ u.lookup ["show", "ip"], n.hidden = false) ∧
      (u.lookup ["show", "ip", "old"]).bind CommandTree.handler = some 0 ∧
      ∀ n ∈ u.lookup ["show", "ip", "old"], n.hidden = true := by
  intro word tokens t u
  have horders : ∀ b ∈ [[word "a"], [word "b"]], Branching b :=
    List.forall_mem_cons.mpr ⟨.element _ .nil, List.forall_mem_singleton.mpr (.element _ .nil)⟩
  have htokens : Branching tokens :=
    .element _ (.group _ (List.cons_ne_nil _ _) (List.forall_mem_cons.mpr
      ⟨.element _ (.group _ (List.cons_ne_nil _ _) horders .nil),
        List.forall_mem_singleton.mpr (.element _ .nil)⟩) .nil)
  obtain ⟨hsplice, hleaves⟩ := build_leaves t htokens 1 false
  have hip : (t.lookup ["show", "ip"]).map hidden = some true := by decide +kernel
  have hold : (t.lookup ["show", "ip", "old"]).map hidden = some true := by decide +kernel
  obtain ⟨m, hm, -⟩ := Option.map_eq_some_iff.mp hip
  obtain ⟨k, hk, hkh⟩ := Option.map_eq_some_iff.mp hold
  refine ⟨htokens, hsplice, (hleaves _).handler_spelled (by decide +kernel), ?_,
    (hleaves _).exists_iff.mpr (.inl (by rw [hm]; rfl)), fun n hn => ?_, ?_, fun n hn => ?_⟩
  · rw [(hleaves _).handler_other (by decide +kernel)]
    decide +kernel
  · rw [(hleaves _).hidden_reached (List.cons_ne_nil _ _) (by decide +kernel) m hm n hn,
      Bool.and_false]
  · rw [(hleaves _).handler_other (by decide +kernel)]
    decide +kernel
  · rw [(hleaves _).hidden_other (by decide +kernel) k hk n hn, hkh]

end CommandTree

end Console
