import Console.Proofs.Shell.Lookahead
import Console.Proofs.Shell.Visible

/-!
# Where help marks the end of a command

Help on a line whose next word has not begun says with a mark that the line is a command as it
stands. A node keeps whether it is hidden, and not which of the commands that use it is: the mark
tells of any command that ends at a node that a visible command reaches.

* `Help.marksEnd`, `Shell.StandsWhere`;
* `Shell.marksEnd_help`: the mark in terms of the node that a line leads to;
* **`Shell.marksEnd_iff`**: the mark in terms of the commands that were loaded, and when it tells
  of a command that is hidden.
-/

namespace Console

open Text

variable {σ : Type}

/-- Help says that the line is a command as it stands. -/
def Help.marksEnd : Help → Bool
  | unrecognized => false
  | ambiguous => false
  | listing _ complete => complete

namespace Expansion

theorem values_extend (e : Expansion (Handler σ)) (s : Step (Handler σ)) :
    (e.extend s).values = e.values ++ [s.value] := by
  simp [values, extend]

theorem values_extend_ne (e : Expansion (Handler σ)) (s : Step (Handler σ)) :
    (e.extend s).values ≠ e.values := by
  intro h
  rw [values_extend] at h
  exact List.cons_ne_nil _ _ (List.append_right_eq_self.mp h)

theorem completes_some {e : Expansion (Handler σ)} {values : List Value} :
    e.completes (some values) = true ↔
      (∃ n, e.last? = some n ∧ n.handler.isSome = true) ∧ e.values = values := by
  unfold completes
  cases e.last? with
  | none => simp
  | some n =>
    rw [Option.bind_some, Bool.and_eq_true, beq_iff_eq, Option.some.injEq]
    constructor
    · rintro ⟨hn, hvalues⟩
      exact ⟨⟨n, rfl, hn⟩, hvalues.symm⟩
    · rintro ⟨⟨m, hm, hh⟩, hvalues⟩
      cases hm
      exact ⟨hh, hvalues.symm⟩

end Expansion

theorem CommandTree.Resolves.eq_of_values {t : CommandTree (Handler σ)} {fs : List String}
    {e c : Expansion (Handler σ)} (h : t.Resolves fs e) (hc : c ∈ expand t fs true)
    (hvalues : c.values = e.values) : c = e := by
  rw [h.expand_lookahead, List.mem_append, List.mem_map] at hc
  rcases hc with ⟨s, -, rfl⟩ | hself
  · exact absurd hvalues (e.values_extend_ne s)
  · split_ifs at hself
    · exact List.mem_singleton.mp hself
    · cases hself

namespace Command

/-- A visible one of the commands has the path `p`. -/
def EndVisibly (cs : List (Command σ)) (p : List String) : Prop :=
  ∃ c ∈ cs, c.hidden = false ∧ c.Denotes p

instance decidableEndVisibly (cs : List (Command σ)) (p : List String) :
    Decidable (EndVisibly cs p) :=
  inferInstanceAs (Decidable (∃ c ∈ cs, c.hidden = false ∧ c.Denotes p))

/-- Of the commands only hidden ones have the path `p`, and a visible one goes on behind it. -/
def GiveAway (cs : List (Command σ)) (p : List String) : Prop :=
  (∃ c ∈ cs, c.Denotes p) ∧ (∀ c ∈ cs, c.Denotes p → c.hidden = true) ∧
    ∃ c ∈ cs, c.hidden = false ∧ c.Reaches p

theorem endVisibly_or_giveAway {cs : List (Command σ)} {p : List String} :
    EndVisibly cs p ∨ GiveAway cs p ↔
      (∃ c ∈ cs, c.Denotes p) ∧ ∃ c ∈ cs, c.hidden = false ∧ c.Reaches p := by
  constructor
  · rintro (⟨c, hc, hhidden, hp⟩ | ⟨hdenotes, -, hreaches⟩)
    · exact ⟨⟨c, hc, hp⟩, c, hc, hhidden, p, hp, List.prefix_rfl⟩
    · exact ⟨hdenotes, hreaches⟩
  · rintro ⟨hdenotes, hreaches⟩
    by_cases h : EndVisibly cs p
    · exact .inl h
    · refine .inr ⟨hdenotes, fun c hc hp => ?_, hreaches⟩
      by_contra hhidden
      exact h ⟨c, hc, Bool.not_eq_true _ ▸ hhidden, hp⟩

theorem GiveAway.not_endVisibly {cs : List (Command σ)} {p : List String} (h : GiveAway cs p) :
    ¬ EndVisibly cs p := by
  rintro ⟨c, hc, hhidden, hp⟩
  rw [h.2.1 c hc hp] at hhidden
  cases hhidden

end Command

namespace CommandTree

theorem Gains.ends_iff {t n : CommandTree (Handler σ)} {cs : List (Command σ)}
    (h : Gains .root cs t) {e : Expansion (Handler σ)} {fs : List String} {lookahead : Bool}
    (he : e ∈ expand t fs lookahead) (hn : e.last? = some n) :
    n.handler.isSome = true ∧ n.hidden = false ↔
      Command.EndVisibly cs e.path ∨ Command.GiveAway cs e.path := by
  obtain ⟨hreflects, hlookup⟩ := h.reflects_path he hn
  rw [Command.endVisibly_or_giveAway, hreflects.hidden_eq_false_iff hlookup,
    Option.isSome_iff_ne_none, ne_eq, hreflects.handler_eq_none n hlookup]
  push Not
  rfl

end CommandTree

namespace Shell

/-- The next word of the line has not begun, the fragments of the line are read in one way only,
and the path of keys that they lead to has `P`. -/
def StandsWhere (s : Shell σ) (line : String) (P : List String → Prop) : Prop :=
  wantsNext line = true ∧
    ∃ fs e, parse line = some fs ∧ expand s.root fs false = [e] ∧ P e.path

theorem marksEnd_help_iff_candidate {s : Shell σ} {line : String} :
    (s.help line).marksEnd = true ↔ ∃ fs, parse line = some fs ∧
      let exact := if wantsNext line then expand s.root fs false else []
      exact.length ≤ 1 ∧ ∃ c ∈ expand s.root fs (wantsNext line), c.isVisible = true ∧
        c.completes (exact.head?.map Expansion.values) = true := by
  unfold help
  cases hfs : parse line with
  | none => simp [Help.marksEnd]
  | some fs =>
    simp only [Option.some.injEq, exists_eq_left']
    generalize (if wantsNext line then expand s.root fs false else []) = exact
    split
    · rename_i hnone
      simp [hnone, Help.marksEnd]
    · split
      · simp [Help.marksEnd]
      · rename_i hfew
        have hlength : exact.length ≤ 1 := by
          rcases exact with _ | ⟨e, _ | ⟨d, rest⟩⟩
          · exact Nat.zero_le 1
          · exact Nat.le_refl 1
          · exact absurd rfl (hfew e d rest)
        simp [Help.marksEnd, hlength]

/-- **Help marks the end** of a line whose fragments are read in one way only, if they lead to a
node with a handler that is not hidden. -/
theorem marksEnd_help {s : Shell σ} {line : String} :
    (s.help line).marksEnd = true ↔ wantsNext line = true ∧ ∃ fs e n, parse line = some fs ∧
      expand s.root fs false = [e] ∧ e.last? = some n ∧ n.handler.isSome = true ∧
      n.hidden = false := by
  rw [marksEnd_help_iff_candidate]
  constructor
  · rintro ⟨fs, hfs, hfew, c, hc, hvisible, hcompletes⟩
    cases hnext : wantsNext line with
    | false => simp [hnext, Expansion.completes_none] at hcompletes
    | true =>
      rw [hnext, if_pos rfl] at hfew hcompletes
      rw [hnext] at hc
      cases he : expand s.root fs false with
      | nil => simp [he, Expansion.completes_none] at hcompletes
      | cons e rest =>
        obtain rfl : rest = [] := by
          rw [he, List.length_cons] at hfew
          exact List.length_eq_zero_iff.mp (by omega)
        rw [he, List.head?_cons, Option.map_some, Expansion.completes_some] at hcompletes
        obtain ⟨⟨n, hn, hhandler⟩, hvalues⟩ := hcompletes
        -- A candidate that goes on has one value more, so that it is the reading itself.
        obtain rfl : c = e := CommandTree.Resolves.eq_of_values (.inr he) hc hvalues
        obtain ⟨m, hm, hhidden⟩ := Expansion.isVisible_iff.mp hvisible
        rw [hn] at hm
        cases hm
        exact ⟨rfl, fs, c, n, hfs, he, hn, hhandler, hhidden⟩
  · rintro ⟨hnext, fs, e, n, hfs, he, hn, hhandler, hhidden⟩
    have hself : e ∈ expand s.root fs true := by
      rw [(CommandTree.Resolves.self_mem (.inr he))]
      simpa [Expansion.reached, hn] using hhandler
    refine ⟨fs, hfs, ?_⟩
    rw [hnext, if_pos rfl, he]
    exact ⟨Nat.le_refl 1, e, hself, Expansion.isVisible_iff.mpr ⟨n, hn, hhidden⟩,
      Expansion.completes_some.mpr ⟨⟨n, hn, hhandler⟩, rfl⟩⟩

theorem StandsWhere.iff {s : Shell σ} {line : String} {fs : List String}
    {e : Expansion (Handler σ)} (hnext : wantsNext line = true) (hfs : parse line = some fs)
    (he : expand s.root fs false = [e]) (P : List String → Prop) :
    s.StandsWhere line P ↔ P e.path := by
  constructor
  · rintro ⟨-, fs', e', hfs', he', h⟩
    cases hfs.symm.trans hfs'
    cases he.symm.trans he'
    exact h
  · exact fun h => ⟨hnext, fs, e, hfs, he, h⟩

theorem standsWhere_or_iff {s : Shell σ} {line : String} {P Q : List String → Prop}
    (exclusive : ∀ p, Q p → ¬ P p) :
    (s.StandsWhere line (fun p => P p ∨ Q p) ↔ s.StandsWhere line P) ↔
      ¬ s.StandsWhere line Q := by
  constructor
  · rintro h ⟨hnext, fs, e, hfs, he, hq⟩
    have hp := h.mp ⟨hnext, fs, e, hfs, he, .inr hq⟩
    exact exclusive _ hq ((StandsWhere.iff hnext hfs he _).mp hp)
  · intro hnot
    constructor
    · rintro ⟨hnext, fs, e, hfs, he, h⟩
      exact ⟨hnext, fs, e, hfs, he, h.resolve_right fun hq => hnot ⟨hnext, fs, e, hfs, he, hq⟩⟩
    · rintro ⟨hnext, fs, e, hfs, he, h⟩
      exact ⟨hnext, fs, e, hfs, he, .inl h⟩

theorem marksEnd_help_of_gains {s : Shell σ} {cs : List (Command σ)}
    (h : CommandTree.Gains .root cs s.root) (line : String) :
    (s.help line).marksEnd = true ↔ s.StandsWhere line fun p =>
      Command.EndVisibly cs p ∨ Command.GiveAway cs p := by
  rw [marksEnd_help]
  constructor
  · rintro ⟨hnext, fs, e, n, hfs, he, hn, hends⟩
    exact ⟨hnext, fs, e, hfs, he, (h.ends_iff (he ▸ List.mem_singleton_self e) hn).mp hends⟩
  · rintro ⟨hnext, fs, e, hfs, he, hpath⟩
    obtain ⟨n, hn⟩ := CommandTree.exists_last?_of_expand he
    exact ⟨hnext, fs, e, n, hfs, he, hn, (h.ends_iff (he ▸ List.mem_singleton_self e) hn).mpr hpath⟩

/-- **Where help marks the end, in a loaded shell**: at the paths that a visible command denotes,
and at those that are given away. Without the latter the mark tells of visible commands alone. -/
theorem marksEnd_iff {prompt : String} {sets : List (CommandSet σ)} {s : Shell σ}
    (hs : Shell.LoadedWith prompt sets s) (line : String) :
    let loaded := sets.flatMap CommandSet.brings
    (∀ sink, (s.describe line sink).mapError Sink.Refusal.cause = sink.write (match s.help line with
      | .unrecognized => line ++ "\n" ++ "% Unrecognized command\n\n"
      | .ambiguous => "% Ambiguous command: \"" ++ line ++ "\"\n\n"
      | .listing entries complete =>
        String.join (entries.map fun e => "  " ++ e.shown ++ "\t" ++ e.description ++ "\n") ++
          (if complete then "  <cr>\n" else "") ++ "\n")) ∧
      ((s.help line).marksEnd = true ↔ s.StandsWhere line fun p =>
        Command.EndVisibly loaded p ∨ Command.GiveAway loaded p) ∧
      (((s.help line).marksEnd = true ↔ s.StandsWhere line (Command.EndVisibly loaded)) ↔
        ¬ s.StandsWhere line (Command.GiveAway loaded)) := by
  intro loaded
  have hmark := marksEnd_help_of_gains hs.gains line
  refine ⟨fun sink => ?_, hmark, ?_⟩
  · refine (s.mapError_describe line sink).trans ?_
    cases s.help line <;> rfl
  · rw [hmark]
    exact standsWhere_or_iff fun p haway => haway.not_endVisibly

/-- Visible and hidden commands that go on behind one another. -/
def nestedSets : List (CommandSet Unit) :=
  [.ofList [.idle "show" true 0, .idle "run fast" true 1],
    .ofList [.idle "show version" false 2, .idle "run" false 3]]

/-- The shell with both sets. -/
def ofNested : Shell Unit :=
  nestedSets.foldl (fun s set => (s.load set ()).shell) (.empty ">")

theorem loadedWith_ofNested : Shell.LoadedWith ">" nestedSets ofNested :=
  .load _ () (.load _ () .empty (by decide +kernel)) (by decide +kernel)

theorem marksEnd_iff_run :
    Shell.LoadedWith ">" nestedSets ofNested ∧
      ofNested.StandsWhere "run " (Command.EndVisibly (nestedSets.flatMap CommandSet.brings)) ∧
      (ofNested.help "run ").marksEnd = true := by
  have hexpand : (expand ofNested.root ["run"] false).map Expansion.path = [["run"]] := by
    decide +kernel
  obtain ⟨e, he, hpath⟩ := List.map_eq_singleton_iff.mp hexpand
  have hnext : wantsNext "run " = true := by decide +kernel
  have hfs : parse "run " = some ["run"] := by decide +kernel
  have hvisible : Command.EndVisibly (nestedSets.flatMap CommandSet.brings) e.path := by
    rw [hpath]
    decide +kernel
  obtain ⟨-, hmark, -⟩ := marksEnd_iff loadedWith_ofNested "run "
  exact ⟨loadedWith_ofNested, ⟨hnext, _, e, hfs, he, hvisible⟩,
    hmark.mpr ⟨hnext, _, e, hfs, he, .inl hvisible⟩⟩

/-- Help marks the end of a command that is hidden, because a visible one goes on behind it. -/
theorem marksEnd_show :
    Shell.LoadedWith ">" nestedSets ofNested ∧ (ofNested.help "show ").marksEnd = true ∧
      ¬ ofNested.StandsWhere "show "
        (Command.EndVisibly (nestedSets.flatMap CommandSet.brings)) := by
  have hexpand : (expand ofNested.root ["show"] false).map (fun e =>
      (e.path, e.last?.map fun n => (n.handler.isSome, n.hidden))) =
        [(["show"], some (true, false))] := by
    decide +kernel
  obtain ⟨e, he, hend⟩ := List.map_eq_singleton_iff.mp hexpand
  obtain ⟨hpath, hlast⟩ := Prod.mk.inj hend
  obtain ⟨n, hn, hnode⟩ := Option.map_eq_some_iff.mp hlast
  obtain ⟨hhandler, hhidden⟩ := Prod.mk.inj hnode
  have hnext : wantsNext "show " = true := by decide +kernel
  have hfs : parse "show " = some ["show"] := by decide +kernel
  refine ⟨loadedWith_ofNested, marksEnd_help.mpr
    ⟨hnext, _, e, n, hfs, he, hn, hhandler, hhidden⟩, ?_⟩
  rw [StandsWhere.iff hnext hfs he, hpath]
  decide +kernel

end Shell

end Console
