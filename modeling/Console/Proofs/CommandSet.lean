import Console.CommandSet
import Mathlib.Data.List.Induction
import Mathlib.Data.List.Nodup

/-!
# What a set of commands holds

* `Command.kept`: of commands added in order, each specification where it was first added, with the
  command that was last added under it;
* **`CommandSet.commands_ofList`**: a set holds what is kept of the commands added to it;
* `CommandSet.brings`: the commands that a set brings to a shell, those of its actions included.
-/

namespace Console

variable {σ : Type}

namespace Command

/-- The last of some commands that has this specification. -/
def lastOf (adds : List (Command σ)) (spec : String) : Option (Command σ) :=
  adds.reverse.find? fun c => c.spec == spec

/-- What is kept of commands added in order: each specification once, at the place where it was
first added, as it was last added. -/
def kept (adds : List (Command σ)) : List (Command σ) :=
  (adds.map Command.spec).eraseDups.filterMap (lastOf adds)

theorem lastOf_append_singleton (adds : List (Command σ)) (c : Command σ) (spec : String) :
    lastOf (adds ++ [c]) spec = if c.spec = spec then some c else lastOf adds spec := by
  simp only [lastOf, List.reverse_append, List.reverse_cons, List.reverse_nil, List.nil_append,
    List.singleton_append, List.find?_cons, beq_eq_decide]
  split_ifs with h <;> simp [h]

theorem exists_lastOf {adds : List (Command σ)} {spec : String}
    (h : spec ∈ adds.map Command.spec) : ∃ c, lastOf adds spec = some c ∧ c.spec = spec := by
  obtain ⟨d, hd, rfl⟩ := List.mem_map.mp h
  have hs : (lastOf adds d.spec).isSome := by
    rw [lastOf, List.find?_isSome]
    exact ⟨d, List.mem_reverse.mpr hd, beq_self_eq_true _⟩
  obtain ⟨c, hc⟩ := Option.isSome_iff_exists.mp hs
  exact ⟨c, hc, by simpa using List.find?_some hc⟩

theorem eraseDups_append_singleton (specs : List String) (spec : String) :
    (specs ++ [spec]).eraseDups =
      if spec ∈ specs then specs.eraseDups else specs.eraseDups ++ [spec] := by
  rw [List.eraseDups_append, List.cons_removeAll]
  split_ifs <;> simp_all [List.removeAll, List.eraseDups_cons]

theorem nodup_eraseDups (specs : List String) : specs.eraseDups.Nodup := by
  induction specs using List.reverseRecOn with
  | nil => exact List.nodup_nil
  | append_singleton specs spec ih =>
    rw [eraseDups_append_singleton]
    split_ifs with h
    · exact ih
    · rw [← List.concat_eq_append, List.nodup_concat]
      exact ⟨fun hm => h (List.mem_eraseDups.mp hm), ih⟩

theorem place_filterMap (c : Command σ) {specs : List String} (hd : specs.Nodup)
    {f : String → Option (Command σ)} (hf : ∀ s ∈ specs, ∃ d, f s = some d ∧ d.spec = s) :
    CommandSet.place c (specs.filterMap f) =
      if c.spec ∈ specs then specs.filterMap fun s => if c.spec = s then some c else f s
      else specs.filterMap f ++ [c] := by
  induction specs with
  | nil => rfl
  | cons s specs ih =>
    obtain ⟨d, hs, rfl⟩ := hf s List.mem_cons_self
    obtain ⟨hnot, hd⟩ := List.nodup_cons.mp hd
    rw [List.filterMap_cons_some hs, CommandSet.place]
    by_cases hc : d.spec = c.spec
    · rw [if_pos hc, if_pos (hc ▸ List.mem_cons_self), List.filterMap_cons, if_pos hc.symm]
      refine congrArg (c :: ·) (List.filterMap_congr fun s' hs' => ?_)
      rw [if_neg fun e => hnot (by rwa [hc, e])]
    · rw [if_neg hc, ih hd fun s' hs' => hf s' (List.mem_cons_of_mem _ hs')]
      have hmem : c.spec ∈ d.spec :: specs ↔ c.spec ∈ specs := by
        rw [List.mem_cons, or_iff_right (Ne.symm hc)]
      simp only [hmem, List.filterMap_cons, if_neg (Ne.symm hc), hs]
      split_ifs <;> rfl

end Command

namespace CommandSet

theorem ofList_append_singleton (adds : List (Command σ)) (c : Command σ)
    (onLoad : Option (List (LoadAction σ))) :
    ofList (adds ++ [c]) onLoad = (ofList adds onLoad).add c := by
  rw [ofList, List.foldl_append]
  rfl

/-- **A set holds what is kept of the commands added to it.** -/
theorem commands_ofList (adds : List (Command σ)) (onLoad : Option (List (LoadAction σ))) :
    (ofList adds onLoad).commands = Command.kept adds := by
  induction adds using List.reverseRecOn with
  | nil => rfl
  | append_singleton adds c ih =>
    rw [ofList_append_singleton, add, ih, Command.kept, Command.place_filterMap c
      (Command.nodup_eraseDups _) fun s hs => Command.exists_lastOf (List.mem_eraseDups.mp hs)]
    rw [Command.kept, List.map_append, List.map_singleton, Command.eraseDups_append_singleton]
    simp only [List.mem_eraseDups, Command.lastOf_append_singleton]
    split_ifs with h
    · rfl
    · rw [List.filterMap_append, List.filterMap_cons, if_pos rfl, List.filterMap_nil]
      refine congrArg (· ++ [c]) (List.filterMap_congr fun s hs => ?_)
      rw [if_neg fun e => h (by rw [e]; exact List.mem_eraseDups.mp hs)]

end CommandSet

/-! ## What a set brings -/

mutual

/-- The commands that a set brings to a shell, those that its actions load included. -/
def CommandSet.brings : CommandSet σ → List (Command σ)
  | ⟨commands, none⟩ => commands
  | ⟨commands, some actions⟩ => commands ++ LoadAction.bringAll actions

/-- The commands that some actions load, in order. -/
def LoadAction.bringAll : List (LoadAction σ) → List (Command σ)
  | [] => []
  | action :: actions => action.brings ++ LoadAction.bringAll actions

/-- The commands that one action loads. -/
def LoadAction.brings : LoadAction σ → List (Command σ)
  | .register command => [command]
  | .load set => set.brings
  | .fail _ | .setPrompt _ | .addMode _ _ | .observe _ => []

end

theorem CommandSet.brings_ofList (adds : List (Command σ)) :
    (CommandSet.ofList adds).brings = Command.kept adds := by
  have h : (CommandSet.ofList adds).onLoad = none := by
    induction adds using List.reverseRecOn with
    | nil => rfl
    | append_singleton adds c ih => rw [ofList_append_singleton, add, ih]
  rw [← commands_ofList adds none]
  cases hs : CommandSet.ofList adds with
  | mk commands onLoad =>
    rw [hs] at h
    cases h
    rfl

end Console
