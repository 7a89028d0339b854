import Console.Proofs.Shell.FullSpelling
import Console.Proofs.Shell.OneByOne
import Console.Proofs.Shell.TypedArguments
import Console.Proofs.Spec.Choices
import Console.Proofs.Text.Words
import Console.Shell.Dispatch
import Mathlib.Data.List.Infix

/-!
# The arguments that a command designates

Choices of branches of one specification share a node of the tree as long as their keywords agree,
and the node has the element of the first of them. Whether a keyword is handed over depends on this
element, not on the choice that has been typed.

* `arguments_eq_wordsAlong`: the arguments of a walk along keys;
* `map_element_labelAt_build`, `isArgument_labelAt_build`: what stands in the tree of one
  specification, and where it is an argument;
* **`Shell.read_alone`**: what the handler of a command gets that is loaded alone, its path being
  typed in full.
-/

namespace Console

universe u

variable {η : Type u} {σ : Type}

open Token Text.Words

namespace CommandTree

theorem arguments_eq_wordsAlong {t : CommandTree η} {p : List String} {e : Expansion η}
    (hvalues : e.values = p.map .word)
    (hnodes : ∀ i < p.length, e.nodes[i]? = t.lookup (p.take (i + 1))) :
    e.arguments = wordsAlong (fun q => (t.labelAt q).any fun l => l.element.isArgument) p := by
  obtain ⟨steps⟩ := e
  -- The walk is followed from the top: behind its first step it is a walk from the child there.
  induction p generalizing t steps with
  | nil =>
    obtain rfl : steps = [] := List.map_eq_nil_iff.mp hvalues
    rfl
  | cons k p ih =>
    obtain ⟨s, ss, rfl, hk, hss⟩ := List.map_eq_cons_iff.mp hvalues
    have hchild : t.child? k = some s.node := by
      have := hnodes 0 (Nat.zero_lt_succ _)
      simpa [Expansion.nodes, lookup] using this.symm
    have hrest : (Expansion.mk ss).arguments =
        wordsAlong (fun q => (s.node.labelAt q).any fun l => l.element.isArgument) p := by
      refine ih ss hss fun i hi => ?_
      have := hnodes (i + 1) (Nat.succ_lt_succ hi)
      simpa [Expansion.nodes, lookup, hchild] using this
    have hlabel (q : List String) : t.labelAt (k :: q) = s.node.labelAt q := by
      rw [labelAt_cons, hchild, Option.bind_some]
    simp only [wordsAlong, hlabel, labelAt_nil, Option.any_some, ← hrest]
    cases h : s.node.element.isArgument <;> simp [Expansion.arguments, h, label, hk]

/-! ## The tree of one specification -/

theorem map_element_along (handler : η) (hidden : Bool) (c : List Taken) (q : List String) :
    (Label.along handler hidden (c.map Taken.element) q).map Label.element =
      (atEnd c q).map Taken.element := by
  fun_induction atEnd c q with
  | case1 x c => simp [Label.along, Taken.keyword]
  | case2 x c k hk => simpa [Label.along, Taken.keyword] using hk
  | case3 x c ks hks ih =>
    cases ks with
    | nil => exact absurd rfl hks
    | cons k ks => simpa [Label.along, Taken.keyword] using ih
  | case4 x c k ks hks hk =>
    cases ks with
    | nil => exact absurd rfl hks
    | cons l ks =>
      have hk' : k ≠ x.element.keyword := hk
      simp [Label.along, hk']
  | case5 c q h1 h2 =>
    cases c with
    | nil => cases q <;> rfl
    | cons x c =>
      cases q with
      | nil => rfl
      | cons k ks => exact absurd rfl (h2 _ _ _ _ rfl)

theorem map_element_labelAt_build (tokens : List Token) (handler : η) (hidden : Bool)
    {q : List String} (hq : q ≠ []) :
    ((root.build tokens handler hidden).labelAt q).map Label.element =
      (firstAt tokens q).map Taken.element := by
  have halong (c : List Taken) :
      (Option.map Label.element ∘ (Label.along handler hidden · q) ∘ List.map Taken.element) c =
        (Option.map Taken.element ∘ (atEnd · q)) c :=
    map_element_along handler hidden c q
  rw [labelAt_build _ _ _ _ hq, root, labelAt_leaf _ _ hq, Label.joined_none_left,
    Label.element_all, paths_eq_map_choices, List.filterMap_map, List.head?_filterMap,
    firstAt, List.map_findSome?, List.map_findSome?]
  exact congrArg (List.findSome? · (choices tokens)) (funext halong)

theorem isArgument_labelAt_build {spec : String} {help : List String} {tokens : List Token}
    (hc : compile spec help = .ok tokens) (handler : η) (hidden : Bool) {q : List String}
    (hq : q ≠ []) :
    ((root.build tokens handler hidden).labelAt q).any (fun l => l.element.isArgument) =
      (firstAt tokens q).any Taken.isArgument := by
  have helement := map_element_labelAt_build tokens handler hidden hq
  have hmarks : ((root.build tokens handler hidden).labelAt q).any (fun l => l.element.isArgument) =
      (firstAt tokens q).any fun x => x.element.isArgument := by
    have := congrArg (Option.any Element.isArgument) helement
    simpa only [Option.any_map] using this
  rw [hmarks]
  cases h : firstAt tokens q with
  | none => rfl
  | some x =>
    obtain ⟨c, hmem, hx⟩ := exists_choice_of_firstAt h
    exact isArgument_of_mem_choices hc hmem x hx

end CommandTree

open CommandTree

namespace Shell

theorem load_singleton (prompt : String) {c : Command σ} {tokens : List Token}
    (hc : compile c.spec c.help = .ok tokens) (world : σ) :
    (Shell.empty prompt).load (.ofList [c]) world =
      ⟨.ok (), ⟨.build tokens c.handler c.hidden .root, prompt, []⟩, world⟩ := by
  have hset : ∀ d ∈ (CommandSet.ofList [c]).commands,
      ∃ tokens, compile d.spec d.help = .ok tokens := by
    intro d hd
    rw [List.mem_singleton.mp hd]
    exact ⟨tokens, hc⟩
  obtain ⟨t, ht, hload⟩ := exists_load (s := .empty prompt) rooted_root rfl hset world
  rw [show (CommandSet.ofList [c]).commands = [c] from rfl, buildAll_cons_of_ok hc] at ht
  cases ht
  exact hload

/-- **What a command that is loaded alone gets when one of its choices is typed in full.** It is
called with the words that the first choices designate which begin like the path, keyword by
keyword. These are the words that the choice itself designates whenever the first choices say the
same along it. -/
theorem read_alone (prompt : String) {c : Command σ} {tokens : List Token}
    (hc : compile c.spec c.help = .ok tokens) {choice : List Taken} (hmem : choice ∈ choices tokens)
    (hne : choice ≠ []) (world : σ) :
    ∃ s, (Shell.empty prompt).load (.ofList [c]) world = ⟨.ok (), s, world⟩ ∧
      (∃ line, parse line = some (choice.map Taken.keyword)) ∧
      ∀ line, parse line = some (choice.map Taken.keyword) → ∃ args,
        s.read line = .call c.handler args ∧
        (∀ world sink, s.dispatch line world sink =
          (c.handler.respond ⟨line, args⟩ world).run sink) ∧
        args = handed tokens (choice.map Taken.keyword) ∧
        ((∀ q ≠ [], q <+: choice.map Taken.keyword →
          (firstAt tokens q).any Taken.isArgument = (atEnd choice q).any Taken.isArgument) →
          args = designated choice) := by
  have hp : choice.map Taken.keyword ≠ [] := mt List.map_eq_nil_iff.mp hne
  have hpath : Token.Denotes tokens (choice.map Taken.element) := by
    rw [← mem_paths, paths_eq_map_choices]
    exact List.mem_map_of_mem hmem
  have hdenotes : c.Denotes (choice.map Taken.keyword) := ⟨_, ⟨tokens, hc, hpath⟩, List.map_map⟩
  refine ⟨_, load_singleton prompt hc world, ?_, fun line hparse => ?_⟩
  · -- Keywords have no blanks, so that they can be typed.
    refine ⟨_, split_trim_typed fun k hk d hd => ?_⟩
    obtain ⟨x, hx, rfl⟩ := List.mem_map.mp hk
    have hkeyword : IsKeyword x.keyword :=
      hpath.isKeyword (wellFormed_of_compile hc).2 x.element (List.mem_map_of_mem hx)
    exact (hkeyword.1 d hd).1
  · have hgains := gains_build sound_root hc
    obtain ⟨n, before, last, after, hn, hcs, -, -, hhandler⟩ :=
      hgains.exists_handler hp List.mem_cons_self hdenotes
    obtain rfl : last = c := by
      have : last ∈ [c] := hcs ▸ List.mem_append_right before List.mem_cons_self
      exact List.mem_singleton.mp this
    obtain ⟨e, he, hvalues, -, hnodes, hend⟩ := exists_expand_of_lookup hn hp
    have hargs : e.arguments = handed tokens (choice.map Taken.keyword) := by
      rw [arguments_eq_wordsAlong hvalues hnodes]
      exact wordsAlong_congr fun q hq _ => isArgument_labelAt_build hc _ _ hq
    have hlast : e.last?.bind CommandTree.handler = some last.handler := by
      rw [hend, Option.bind_some, hhandler]
    have hread : Shell.read ⟨.build tokens last.handler last.hidden .root, prompt, []⟩ line =
        .call last.handler e.arguments :=
      read_of_expand hparse he hlast
    refine ⟨e.arguments, hread, fun world sink => ?_, hargs, fun hagree => ?_⟩
    · rw [dispatch, hread]
      rfl
    · rw [hargs, handed_eq_designated hagree]

/-- The tokens of `ping HOST (count <1-9>|)`. -/
def pingTokens : List Token :=
  [.element (.ofArgspec "ping" "" false), .element (.ofArgspec "HOST" "" false),
    .group .alternation
      [[.element (.ofArgspec "count" "" true), .element (.ofArgspec "<1-9>" "" true)], []]]

/-- The choice in which nothing is left out. -/
def pingChoice : List Taken :=
  [⟨.ofArgspec "ping" "" false, false⟩, ⟨.ofArgspec "HOST" "" false, false⟩,
    ⟨.ofArgspec "count" "" true, true⟩, ⟨.ofArgspec "<1-9>" "" true, true⟩]

theorem read_alone_ping :
    compile "ping HOST (count <1-9>|)" [] = .ok pingTokens ∧ pingChoice ∈ choices pingTokens ∧
      pingChoice ≠ [] ∧ parse "ping HOST count <1-9>" = some (pingChoice.map Taken.keyword) ∧
      ∃ s, (Shell.empty ">").load (.ofList [.idle "ping HOST (count <1-9>|)" false 0]) () =
          ⟨.ok (), s, ()⟩ ∧
        s.read "ping HOST count <1-9>" =
          .call (Command.idle "ping HOST (count <1-9>|)" false 0).handler
            [.word "HOST", .word "count", .word "<1-9>"] := by
  have hcompile : compile "ping HOST (count <1-9>|)" [] = .ok pingTokens := by decide +kernel
  have hmem : pingChoice ∈ choices pingTokens := by decide +kernel
  have hagree : ∀ q ∈ (pingChoice.map Taken.keyword).inits, q ≠ [] →
      (firstAt pingTokens q).any Taken.isArgument =
        (atEnd pingChoice q).any Taken.isArgument := by
    decide +kernel
  have hline : parse "ping HOST count <1-9>" = some (pingChoice.map Taken.keyword) := by
    decide +kernel
  have hdesignated : designated pingChoice = [.word "HOST", .word "count", .word "<1-9>"] := by
    decide +kernel
  obtain ⟨s, hload, -, hread⟩ :=
    read_alone ">" (c := .idle "ping HOST (count <1-9>|)" false 0) hcompile hmem
      (List.cons_ne_nil _ _) ()
  obtain ⟨args, hargs, -, -, hsame⟩ := hread _ hline
  rw [hsame fun q hq hpre => hagree q ((List.mem_inits _ _).mpr hpre) hq, hdesignated] at hargs
  exact ⟨hcompile, hmem, List.cons_ne_nil _ _, hline, s, hload, hargs⟩

/-- The tokens of `foo (bar|) bar`, of which one choice begins as the other one ends. -/
def barTokens : List Token :=
  [.element (.ofArgspec "foo" "" false),
    .group .alternation [[.element (.ofArgspec "bar" "" true)], []],
    .element (.ofArgspec "bar" "" false)]

/-- **A word that stands outside all groups is handed over,** since the first choice has it in a
group. -/
theorem literal_handed_over_bar :
    compile "foo (bar|) bar" [] = .ok barTokens ∧
      (choices barTokens).filter (fun c => c.map Taken.keyword = ["foo", "bar"]) =
        [[⟨.ofArgspec "foo" "" false, false⟩, ⟨.ofArgspec "bar" "" false, false⟩]] ∧
      designated [⟨.ofArgspec "foo" "" false, false⟩, ⟨.ofArgspec "bar" "" false, false⟩] = [] ∧
      parse "foo bar" = some ["foo", "bar"] ∧
      ((Shell.empty ">").load (.ofList [.idle "foo (bar|) bar" false 0]) ()).result = .ok () ∧
      (((Shell.empty ">").load (.ofList [.idle "foo (bar|) bar" false 0]) ()).shell.read
        "foo bar").arguments? = some [.word "bar"] := by
  decide +kernel

end Shell

end Console
