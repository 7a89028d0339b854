import Console.Proofs.Shell.Compatible
import Console.Proofs.Shell.OneByOne
import Console.Proofs.Shell.TypedArguments
import Console.Shell.Dispatch

/-!
# The order of loading

Two sets of commands without a common path can be loaded in either order. Where they share a node,
the set that is loaded first decides its element, and a line may show this; if the sets are
compatible, no line does.

* `Shell.read_eq_of_bare`: shells whose trees look the same to a line;
* **`Shell.read_either_order`**: the lines of the shells that come of two orders;
* `Shell.order_shown_by_foo`: a line that shows the order.
-/

namespace Console

variable {σ : Type}

theorem Reading.ofExpansions_map_bare (es : List (Expansion (Handler σ))) :
    ofExpansions (es.map Expansion.bare) = ofExpansions es := by
  rcases es with _ | ⟨e, _ | ⟨e', es⟩⟩
  · rfl
  · have hhandler : e.bare.last?.bind CommandTree.handler = e.last?.bind CommandTree.handler := by
      rw [Expansion.last?_bare, Option.bind_map]
      refine Option.bind_congr fun n _ => ?_
      cases n
      rfl
    rw [List.map_singleton, ofExpansions, ofExpansions, hhandler, Expansion.arguments_bare]
  · rfl

namespace Shell

open CommandTree Command

theorem read_eq_of_bare {s t : Shell σ} (hs : s.root.Rooted) (ht : t.root.Rooted)
    (h : s.root.children.bare = t.root.children.bare) (line : String) :
    s.read line = t.read line := by
  cases hparse : parse line with
  | none => rw [read, read, hparse]
  | some fragments =>
    rw [read_eq_ofExpansions s hparse, read_eq_ofExpansions t hparse,
      ← Reading.ofExpansions_map_bare, map_bare_expand_eq hs.element ht.element h,
      Reading.ofExpansions_map_bare]

/-- **Sets of commands in either order.** Two sets that bring nothing but commands, of which none
has a path of the other set, can be loaded in either order. The nodes of the two shells have the
same traits if and only if the sets are compatible; and then every line asks the same of both. -/
theorem read_either_order {prompt : String} {sets : List (CommandSet σ)} {s : Shell σ}
    (hs : Shell.LoadedWith prompt sets s) {one other : CommandSet σ}
    (hone : one.onLoad = none) (hother : other.onLoad = none)
    (hcompile : ∀ c ∈ one.commands, ∃ tokens, compile c.spec c.help = .ok tokens)
    (hcompile' : ∀ c ∈ other.commands, ∃ tokens, compile c.spec c.help = .ok tokens)
    (hunrelated : Unrelated one.commands other.commands) (world : σ) :
    ∃ s₁ s₂ t₁ t₂,
      (s.load one world = ⟨.ok (), s₁, world⟩ ∧ s₁.load other world = ⟨.ok (), s₂, world⟩) ∧
      (s.load other world = ⟨.ok (), t₁, world⟩ ∧ t₁.load one world = ⟨.ok (), t₂, world⟩) ∧
      ((∀ p, s₂.root.traitsAt p = t₂.root.traitsAt p) ↔
        Compatible s.root one.commands other.commands) ∧
      (Compatible s.root one.commands other.commands → ∀ line, s₂.read line = t₂.read line ∧
        ∀ w sink, s₂.dispatch line w sink = t₂.dispatch line w sink) := by
  have hroot := hs.rooted
  obtain ⟨u₁, hu₁, hload₁⟩ := exists_load hroot hone hcompile world
  obtain ⟨u₂, hu₂, hload₂⟩ :=
    exists_load (s := { s with root := u₁ }) (hroot.buildAll hu₁) hother hcompile' world
  obtain ⟨v₁, hv₁, hload₁'⟩ := exists_load hroot hother hcompile' world
  obtain ⟨v₂, hv₂, hload₂'⟩ :=
    exists_load (s := { s with root := v₁ }) (hroot.buildAll hv₁) hone hcompile world
  have hu : Gains s.root (one.commands ++ other.commands) u₂ :=
    (gains_buildAll hroot.sound hu₁).trans (gains_buildAll (hroot.buildAll hu₁).sound hu₂)
  have hv : Gains s.root (other.commands ++ one.commands) v₂ :=
    (gains_buildAll hroot.sound hv₁).trans (gains_buildAll (hroot.buildAll hv₁).sound hv₂)
  refine ⟨_, _, _, _, ⟨hload₁, hload₂⟩, ⟨hload₁', hload₂'⟩, traitsAt_eq_iff_compatible hu hv,
    fun hcompatible line => ?_⟩
  have hbare := bare_children_eq_of_compatible hu hv hunrelated hcompatible
  have hread := read_eq_of_bare (s := { s with root := u₂ }) (t := { s with root := v₂ })
    ((hroot.buildAll hu₁).buildAll hu₂) ((hroot.buildAll hv₁).buildAll hv₂) hbare line
  refine ⟨hread, fun w sink => ?_⟩
  rw [dispatch, dispatch, hread]

/-- Two sets with nodes in common, of which one may be repeated. -/
def showWords : CommandSet Unit := .ofList [.idle "show (ip|ipv6) .WORD" false 0]

@[inherit_doc showWords]
def showDetail : CommandSet Unit := .ofList [.idle "show (ip|all) .WORD detail" false 1]

theorem read_either_order_show :
    Shell.LoadedWith ">" [.ofList [.idle "show (ip|version)" false 0]] ofShow ∧
      showWords.onLoad = none ∧ showDetail.onLoad = none ∧
      (∀ c ∈ showWords.commands, ∃ tokens, compile c.spec c.help = .ok tokens) ∧
      (∀ c ∈ showDetail.commands, ∃ tokens, compile c.spec c.help = .ok tokens) ∧
      Unrelated showWords.commands showDetail.commands ∧
      Compatible ofShow.root showWords.commands showDetail.commands ∧
      ∃ s₁ s₂ t₁ t₂,
        (ofShow.load showWords () = ⟨.ok (), s₁, ()⟩ ∧
          s₁.load showDetail () = ⟨.ok (), s₂, ()⟩) ∧
        (ofShow.load showDetail () = ⟨.ok (), t₁, ()⟩ ∧
          t₁.load showWords () = ⟨.ok (), t₂, ()⟩) ∧
        (∀ p, s₂.root.traitsAt p = t₂.root.traitsAt p) ∧
        ∀ line, s₂.read line = t₂.read line := by
  have hs : Shell.LoadedWith ">" [.ofList [.idle "show (ip|version)" false 0]] ofShow :=
    .load _ () .empty (by decide +kernel)
  have hcompile : ∀ c ∈ showWords.commands, ∃ tokens, compile c.spec c.help = .ok tokens := by
    decide +kernel
  have hcompile' : ∀ c ∈ showDetail.commands, ∃ tokens, compile c.spec c.help = .ok tokens := by
    decide +kernel
  have hunrelated : Unrelated showWords.commands showDetail.commands := by decide +kernel
  have hcompatible : Compatible ofShow.root showWords.commands showDetail.commands :=
    compatible_of_agree (by decide +kernel) ofShow.root
  obtain ⟨s₁, s₂, t₁, t₂, hloads, hloads', htraits, hread⟩ :=
    read_either_order hs rfl rfl hcompile hcompile' hunrelated ()
  exact ⟨hs, rfl, rfl, hcompile, hcompile', hunrelated, hcompatible, s₁, s₂, t₁, t₂, hloads,
    hloads', htraits.mpr hcompatible, fun line => (hread hcompatible line).1⟩

/-- Two sets of which one has a literal where the other one has a group. -/
def fooBar : CommandSet Unit := .ofList [.idle "foo bar x" false 0]

@[inherit_doc fooBar]
def fooGroup : CommandSet Unit := .ofList [.idle "foo (bar|baz) y" false 1]

/-- **A line that shows the order of loading.** Whether the word in a group is handed over depends
on which of the sets has been loaded first. -/
theorem order_shown_by_foo :
    fooBar.onLoad = none ∧ fooGroup.onLoad = none ∧
      (∀ c ∈ fooBar.commands ++ fooGroup.commands, ∃ tokens, compile c.spec c.help = .ok tokens) ∧
      Unrelated fooBar.commands fooGroup.commands ∧
      (∀ c ∈ fooBar.commands ++ fooGroup.commands, ¬ c.Denotes []) ∧
      (((Shell.empty ">").load fooBar ()).shell.load fooGroup ()).result = .ok () ∧
      (((Shell.empty ">").load fooGroup ()).shell.load fooBar ()).result = .ok () ∧
      ((((Shell.empty ">").load fooBar ()).shell.load fooGroup ()).shell.read
        "foo bar y").arguments? = some [] ∧
      ((((Shell.empty ">").load fooGroup ()).shell.load fooBar ()).shell.read
        "foo bar y").arguments? = some [.word "bar"] := by
  decide +kernel

/-- The order may also decide whether a line is a command at all. -/
example :
    let one : CommandSet Unit := .ofList [.idle "foo WORD x" false 0]
    let other : CommandSet Unit := .ofList [.idle "foo .WORD y" false 1]
    ((((Shell.empty ">").load one ()).shell.load other ()).shell.read
        "foo a b y").arguments? = none ∧
      ((((Shell.empty ">").load other ()).shell.load one ()).shell.read
        "foo a b y").arguments? = some [.word "a", .word "b"] := by
  decide +kernel

end Shell

end Console
