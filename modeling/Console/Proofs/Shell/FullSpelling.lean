import Console.Proofs.Shell.Lookup
import Console.Proofs.Tree.Walk

/-!
# Commands typed in full

A path of a loaded command, typed keyword by keyword, is read in one way only. At every node the key
of a child comes before all else, so nothing that stands beside the path has a part in the reading:
neither longer keywords, nor typed places, nor places that may be repeated, nor hidden commands.

* `Gains.exists_handler`: a path of a loaded command ends at the handler of the last such command;
* **`Shell.expand_of_denotes`**: the only reading of a path.
-/

namespace Console

variable {σ : Type}

namespace CommandTree

theorem Gains.exists_handler {t : CommandTree (Handler σ)} {cs : List (Command σ)}
    (h : Gains .root cs t) {p : List String} (hp : p ≠ []) {c : Command σ} (hc : c ∈ cs)
    (hd : c.Denotes p) : ∃ n before last after, t.lookup p = some n ∧
      cs = before ++ last :: after ∧ last.Denotes p ∧ (∀ d ∈ after, ¬ d.Denotes p) ∧
      n.handler = some last.handler := by
  have hr := h.reflects hp
  obtain ⟨n, hn⟩ := hr.exists_iff.mpr ⟨c, hc, p, hd, List.prefix_rfl⟩
  cases hh : n.handler with
  | none => exact absurd hd ((hr.handler_eq_none n hn).mp hh c hc)
  | some g =>
    obtain ⟨before, last, after, hcs, hlast, rfl, hafter⟩ := (hr.handler_eq_some n hn g).mp hh
    exact ⟨n, before, last, after, hn, hcs, hlast, hafter, hh⟩

end CommandTree

namespace Shell

/-- **A path of a loaded command, typed in full, is read in one way only.** The reading has the
words of the path as values and goes through the nodes that are found by the first keywords of the
path. It ends at the handler of the last loaded command that has this path. -/
theorem expand_of_denotes {prompt : String} {sets : List (CommandSet σ)} {s : Shell σ}
    (hs : Shell.LoadedWith prompt sets s) {c : Command σ}
    (hc : c ∈ sets.flatMap CommandSet.brings) {p : List String} (hp : p ≠ []) (hd : c.Denotes p) :
    ∃ e, expand s.root p false = [e] ∧ e.values = p.map .word ∧ e.nodes.length = p.length ∧
      (∀ i < p.length, e.nodes[i]? = s.root.lookup (p.take (i + 1))) ∧
      ∃ before last after, sets.flatMap CommandSet.brings = before ++ last :: after ∧
        last.Denotes p ∧ (∀ d ∈ after, ¬ d.Denotes p) ∧
        e.last?.bind CommandTree.handler = some last.handler := by
  obtain ⟨n, before, last, after, hn, hcs, hlast, hafter, hhandler⟩ :=
    hs.gains.exists_handler hp hc hd
  obtain ⟨e, he, hvalues, hlength, hnodes, hend⟩ := CommandTree.exists_expand_of_lookup hn hp
  refine ⟨e, he, hvalues, hlength, hnodes, before, last, after, hcs, hlast, hafter, ?_⟩
  rw [hend, Option.bind_some, hhandler]

/-- Sets whose commands compete: a place that may be repeated, a longer keyword, a range, and a
hidden command with a path of another one. -/
def rivals : List (CommandSet Unit) :=
  [.ofList [.idle "show (.WORD|WORDS|<1-9>) detail" false 0, .idle "show .WORD" false 1],
    .ofList [.idle "show WORD \x7bdetail|all\x7d" true 2]]

/-- The shell after the sets that compete. -/
def ofRivals : Shell Unit := rivals.foldl (fun s set => (s.load set ()).shell) (.empty ">")

theorem expand_of_denotes_rivals :
    Shell.LoadedWith ">" rivals ofRivals ∧
      Command.idle "show (.WORD|WORDS|<1-9>) detail" false 0 ∈ rivals.flatMap CommandSet.brings ∧
      (Command.idle "show (.WORD|WORDS|<1-9>) detail" false 0).Denotes ["show", "WORD", "detail"] ∧
      ∃ e, expand ofRivals.root ["show", "WORD", "detail"] false = [e] ∧
        e.values = [.word "show", .word "WORD", .word "detail"] ∧
        (e.last?.bind CommandTree.handler).map Handler.serial = some 2 := by
  have hs : Shell.LoadedWith ">" rivals ofRivals :=
    .load _ () (.load _ () .empty (by decide +kernel)) (by decide +kernel)
  have hmem : Command.idle "show (.WORD|WORDS|<1-9>) detail" false 0 ∈
      rivals.flatMap CommandSet.brings := by
    simp only [rivals, List.flatMap_cons, List.mem_append]
    exact .inl (.head _)
  have hd : (Command.idle "show (.WORD|WORDS|<1-9>) detail" false 0).Denotes
      ["show", "WORD", "detail"] := by
    have hcompile : compile "show (.WORD|WORDS|<1-9>) detail" [] =
        .ok [.element (.ofArgspec "show" "" false),
          .group .alternation [[.element (.ofArgspec ".WORD" "" true)],
            [.element (.ofArgspec "WORDS" "" true)], [.element (.ofArgspec "<1-9>" "" true)]],
          .element (.ofArgspec "detail" "" false)] := by
      decide +kernel
    refine ⟨_, ⟨_, hcompile, .element _ (.alternation List.mem_cons_self (.element _ .nil)
      (.element _ .nil))⟩, by decide +kernel⟩
  obtain ⟨e, he, hvalues, -⟩ := expand_of_denotes hs hmem (List.cons_ne_nil _ _) hd
  have hserial : ((expand ofRivals.root ["show", "WORD", "detail"] false).map fun e =>
      (e.last?.bind CommandTree.handler).map Handler.serial) = [some 2] := by
    decide +kernel
  rw [he] at hserial
  exact ⟨hs, hmem, hd, e, he, hvalues, List.singleton_inj.mp hserial⟩

end Shell

end Console
