import Console.Proofs.Converter
import Console.Proofs.Shell.Abbreviation
import Console.Proofs.Shell.TypedArguments
import Console.Proofs.Tree.Survey
import Console.Proofs.Tree.Trail

/-!
# The expanded form of a line

The values of an expansion, as they are shown, can be typed again. Where no keyword begins like an
integer, and no place that may be repeated has a child with its own keyword, this expanded form has
the same expansion: keywords stand for themselves, a word that a variable has taken is its fragment,
and an integer is taken wherever the fragment that denoted it was.

* `Converter.nonneg_of_apply`: the integers that places take are not negative;
* `CommandTree.parse_eq_of_denotes`: fragments that denote the same integer have the same value;
* `CommandTree.Settled`: the condition on a tree; `Settled.of_mem_stepsFor`: a step keeps it;
* **`Settled.stepsFor_text`**: the text of the only step for a fragment has this step again;
* **`Walks.texts`**, **`Shell.expand_texts`**: so has the expanded form of a line.
-/

namespace Console

universe u

variable {η : Type u} {σ : Type}

open Text

/-! ## Integers at places -/

namespace Converter

theorem nonneg_of_resolve {keyword : String} {first last : Int64}
    (h : resolve keyword = some (.range first last)) : 0 ≤ first.toInt := by
  obtain ⟨a, b, -, -, -, hfirst, -⟩ := resolve_eq_range.mp h
  exact hfirst ▸ Int.natCast_nonneg _

theorem nonneg_of_apply {keyword f : String} {c : Converter} {n : Int64}
    (hc : resolve keyword = some c) (h : c.apply f = some (.integer n)) :
    Decimal.Denotes f.toList n.toInt ∧ 0 ≤ n.toInt := by
  have hdelivers := apply_eq_some.mp h
  rcases c with _ | ⟨first, last⟩
  · cases hdelivers
  · obtain ⟨m, heq, hdenotes, hfirst, -⟩ := hdelivers
    obtain rfl := Value.integer.inj heq
    exact ⟨hdenotes, (nonneg_of_resolve hc).trans (Int64.le_iff_toInt_le.mp hfirst)⟩

theorem eq_of_apply_word {c : Converter} {f w : String} (h : c.apply f = some (.word w)) :
    w = f := by
  have hdelivers := apply_eq_some.mp h
  rcases c with _ | ⟨first, last⟩
  · exact Value.word.inj hdelivers
  · obtain ⟨m, heq, -⟩ := hdelivers
    cases heq

end Converter

theorem Value.isDigit_text {n : Int64} (h : 0 ≤ n.toInt) :
    (text (.integer n)).toList ≠ [] ∧ ∀ c ∈ (text (.integer n)).toList, c.isDigit = true := by
  obtain ⟨m, hm⟩ := Int.eq_ofNat_of_zero_le h
  have htext : (text (.integer n)).toList = Nat.toDigits 10 m := by
    rw [text, hm, Decimal.toList_toString_natCast]
  rw [htext]
  exact ⟨Nat.toDigits_ne_nil, fun _ => Decimal.isDigit_of_mem_toDigits⟩

theorem not_begins_of_isDigit {k : String} (hk : k.toList.head?.any Char.isDigit = false)
    {ds : List Char} (hne : ds ≠ []) (hds : ∀ c ∈ ds, c.isDigit = true) : ¬ ds <+: k.toList := by
  rintro ⟨rest, hrest⟩
  cases ds with
  | nil => exact hne rfl
  | cons d ds =>
    have hhead : k.toList.head? = some d := by rw [← hrest, List.cons_append, List.head?_cons]
    rw [hhead, Option.any_some, hds d List.mem_cons_self] at hk
    cases hk

namespace CommandTree

theorem parse_eq_of_denotes {t : CommandTree η} {f g : String} {n : Int64}
    (hf : Decimal.Denotes f.toList n.toInt) (hg : Decimal.Denotes g.toList n.toInt)
    (hbegins : ¬ g.toList <+: t.keyword.toList) (hword : ∀ w, t.parse f ≠ some (.word w)) :
    t.parse g = t.parse f := by
  have hbegins' : ¬ f.toList <+: t.keyword.toList := fun h => hword _ (parse_of_begins h)
  rw [parse_of_not_begins hbegins'] at hword ⊢
  rw [parse_of_not_begins hbegins]
  rcases hc : t.element.converter with _ | _ | ⟨first, last⟩
  · rfl
  · rw [hc] at hword
    exact absurd rfl (hword f)
  · simp only [Option.bind_some, Converter.apply, Decimal.int64?_eq_some.mpr hf,
      Decimal.int64?_eq_some.mpr hg]

/-! ## Trees whose expanded forms can be typed -/

/-- No node of this tree that may be repeated has a child with its own keyword, and no keyword
begins with a digit. -/
structure Settled (t : CommandTree η) : Prop where
  compiled : t.Compiled
  apart : ∀ p n, t.lookup p = some n → n.element.isRecursive = true → n.child? n.keyword = none
  wordy : ∀ p n, t.lookup p = some n → n.keyword.toList.head?.any Char.isDigit = false

theorem Settled.child {t c : CommandTree η} (ht : t.Settled) {k : String}
    (hc : t.child? k = some c) : c.Settled := by
  have hlookup := lookup_cons_of_child hc
  refine ⟨(ht.compiled.child hc).2, fun p n hn => ?_, fun p n hn => ?_⟩
  · exact ht.apart (k :: p) n ((hlookup p).trans hn)
  · exact ht.wordy (k :: p) n ((hlookup p).trans hn)

theorem Settled.of_mem_stepsFor {t : CommandTree η} (ht : t.Settled) {f : String} {s : Step η}
    (h : s ∈ t.stepsFor f) : s.node.Settled := by
  rcases stays_or_child_of_mem_stepsFor ht.compiled.sound h with ⟨-, hnode, -⟩ | ⟨-, hchild⟩
  · exact hnode ▸ ht
  · exact ht.child hchild

/-! ## The text of an integer -/

theorem Compiled.denotes_of_mem_stepsFor {t : CommandTree η} (ht : t.Compiled) {f : String}
    {s : Step η} (h : s ∈ t.stepsFor f) {n : Int64} (hn : s.value = .integer n) :
    Decimal.Denotes f.toList n.toInt ∧ 0 ≤ n.toInt := by
  have hfrom := from_of_mem_stepsFor ht.sound h
  have hbegins : ¬ f.toList <+: s.node.keyword.toList := fun hbegins => by
    rw [hfrom.keyword hbegins] at hn
    cases hn
  obtain ⟨c, hc, hv⟩ := hfrom.converted hbegins
  obtain ⟨argspec, description, inGroup, he⟩ := ht.isCompiled_of_mem_stepsFor h
  rw [he] at hc
  rw [hn] at hv
  exact Converter.nonneg_of_apply hc hv

theorem Settled.not_begins_text {t : CommandTree η} (ht : t.Settled) {n : Int64}
    (hn : 0 ≤ n.toInt) : ¬ (Value.integer n).text.toList <+: t.keyword.toList := by
  obtain ⟨hne, hdigits⟩ := Value.isDigit_text hn
  exact not_begins_of_isDigit (ht.wordy [] t rfl) hne hdigits

theorem Settled.child?_text {t : CommandTree η} (ht : t.Settled) {n : Int64} (hn : 0 ≤ n.toInt) :
    t.child? (Value.integer n).text = none := by
  cases hc : t.child? (Value.integer n).text with
  | none => rfl
  | some c =>
    have hkeyword : c.keyword = (Value.integer n).text := (sound_child ht.compiled.sound hc).1
    have hbegins := (ht.child hc).not_begins_text hn
    rw [hkeyword] at hbegins
    exact absurd List.prefix_rfl hbegins

theorem Settled.parse_text {t : CommandTree η} (ht : t.Settled) {f : String} {n : Int64}
    (hf : Decimal.Denotes f.toList n.toInt) (hn : 0 ≤ n.toInt)
    (hword : ∀ w, t.parse f ≠ some (.word w)) : t.parse (Value.integer n).text = t.parse f :=
  parse_eq_of_denotes hf (Decimal.denotes_toString n.toInt) (ht.not_begins_text hn) hword

/-! ## One step -/

theorem open_of_mem_stepsFor {t : CommandTree η} {f : String} {s : Step η} (h : s ∈ t.stepsFor f)
    (hvalue : s.value ≠ .word f) (hgoes : s.stays = false) : t.Open f := by
  unfold stepsFor at h
  split at h
  · rw [List.mem_singleton.mp h] at hvalue
    exact absurd rfl hvalue
  · rename_i hfree
    split at h
    · rw [List.mem_singleton.mp h] at hgoes
      cases hgoes
    · rename_i hself
      exact ⟨hfree, fun hrec => by rwa [if_pos hrec] at hself⟩

theorem Settled.stepsFor_word {t : CommandTree η} (ht : t.Settled) {f w : String} {s : Step η}
    (h : t.stepsFor f = [s]) (hw : s.value = .word w) : t.stepsFor w = [s] := by
  have hmem : s ∈ t.stepsFor f := h ▸ List.mem_singleton_self s
  have hfrom := from_of_mem_stepsFor ht.compiled.sound hmem
  by_cases hbegins : f.toList <+: s.node.keyword.toList
  · have hkeyword := hfrom.keyword hbegins
    obtain rfl : w = s.node.keyword := Value.word.inj (hw.symm.trans hkeyword)
    obtain ⟨value, node, stays⟩ := s
    obtain rfl : value = .word node.keyword := hkeyword
    rcases stays_or_child_of_mem_stepsFor ht.compiled.sound hmem with
      ⟨hstays, hnode, hrec⟩ | ⟨hgoes, hchild⟩
    · obtain rfl : node = t := hnode
      obtain rfl : stays = true := hstays
      exact stepsFor_of_self (ht.apart [] node rfl hrec) hrec node.parse_keyword
    · obtain rfl : stays = false := hgoes
      exact stepsFor_of_child hchild
  · obtain ⟨c, -, hv⟩ := hfrom.converted hbegins
    rw [hw] at hv
    obtain rfl : w = f := Converter.eq_of_apply_word hv
    exact h

theorem Settled.stepsFor_integer {t : CommandTree η} (ht : t.Settled) {f : String} {s : Step η}
    (h : t.stepsFor f = [s]) {n : Int64} (hn : s.value = .integer n) :
    t.stepsFor (Value.integer n).text = [s] := by
  have hsound := ht.compiled.sound
  have hmem : s ∈ t.stepsFor f := h ▸ List.mem_singleton_self s
  obtain ⟨hdenotes, hnonneg⟩ := ht.compiled.denotes_of_mem_stepsFor hmem hn
  obtain ⟨hparse, -⟩ := parse_of_mem_stepsFor hsound hmem
  rcases stays_or_child_of_mem_stepsFor hsound hmem with ⟨hstays, hnode, hrec⟩ | ⟨hgoes, -⟩
  · obtain ⟨value, node, stays⟩ := s
    obtain rfl : node = t := hnode
    obtain rfl : stays = true := hstays
    obtain rfl : value = .integer n := hn
    have hsame := ht.parse_text hdenotes hnonneg (by simp [hparse])
    exact stepsFor_of_self (ht.child?_text hnonneg) hrec (hsame.trans hparse)
  · have hopen : t.Open f := open_of_mem_stepsFor hmem (by simp [hn]) hgoes
    have hopen' : t.Open (Value.integer n).text := by
      refine ⟨ht.child?_text hnonneg, fun hrec => ?_⟩
      have hnone := hopen.plain hrec
      exact (ht.parse_text hdenotes hnonneg (by simp [hnone])).trans hnone
    rw [stepsFor_of_open hopen', ← h, stepsFor_of_open hopen]
    refine List.filterMap_congr fun c hc => ?_
    have hchild := (Children.mem_trees (sound_iff.mp hsound)).mp hc
    -- A child that takes the fragment as a word would be another step for it.
    rw [(ht.child hchild).parse_text hdenotes hnonneg fun w hw => ?_]
    have hother : ⟨.word w, c, false⟩ ∈ t.stepsFor f :=
      (mem_stepsFor_of_open hopen).mpr ⟨hc, hw, rfl⟩
    rw [h, List.mem_singleton] at hother
    rw [← hother] at hn
    cases hn

/-- **The text of the only step for a fragment has this step again.** -/
theorem Settled.stepsFor_text {t : CommandTree η} (ht : t.Settled) {f : String} {s : Step η}
    (h : t.stepsFor f = [s]) : t.stepsFor s.value.text = [s] := by
  cases hvalue : s.value with
  | word w => exact ht.stepsFor_word h hvalue
  | integer n => exact ht.stepsFor_integer h hvalue

/-! ## Lines -/

/-- **The texts of a walk are this walk again.** -/
theorem Walks.texts {t : CommandTree η} {fs : List String} {ss : List (Step η)}
    (h : t.Walks fs ss) (ht : t.Settled) : t.Walks (ss.map fun s => s.value.text) ss := by
  induction h with
  | nil t => exact .nil t
  | @cons t f fs s ss only rest ih =>
    exact .cons (ht.stepsFor_text only) (ih (ht.of_mem_stepsFor (only ▸ List.mem_singleton_self s)))

end CommandTree

namespace Shell

theorem LoadedWith.forall_lookup {prompt : String} {sets : List (CommandSet σ)} {s : Shell σ}
    (hs : Shell.LoadedWith prompt sets s) {P : List String × CommandTree (Handler σ) → Prop}
    (h : ∀ q ∈ s.root.survey, P q) (p : List String) (n : CommandTree (Handler σ))
    (hn : s.root.lookup p = some n) : P (p, n) :=
  h (p, n) ((CommandTree.mem_survey hs.gains.sound).mpr hn)

/-- **The expanded form of a line.** Let no place of a loaded shell that may be repeated have a
child with its own keyword, and no keyword begin with a digit. If some fragments have a single
expansion, then the texts of its values have this expansion, and no other one. -/
theorem expand_texts {prompt : String} {sets : List (CommandSet σ)} {s : Shell σ}
    (hs : Shell.LoadedWith prompt sets s)
    (apart : ∀ p n, s.root.lookup p = some n → n.element.isRecursive = true →
      n.child? n.keyword = none)
    (wordy : ∀ p n, s.root.lookup p = some n → n.keyword.toList.head?.any Char.isDigit = false)
    {fs : List String} {e : Expansion (Handler σ)} (he : expand s.root fs false = [e]) :
    expand s.root (e.values.map Value.text) false = [e] := by
  have hsettled : s.root.Settled := ⟨hs.compiled, apart, wordy⟩
  have hwalk := (CommandTree.walks_of_expand he).texts hsettled
  have hne : e.steps ≠ [] := by
    obtain ⟨n, hn⟩ := CommandTree.exists_last?_of_expand he
    intro hsteps
    simp [Expansion.last?, hsteps] at hn
  rw [Expansion.values, List.map_map]
  exact CommandTree.expand_of_walks hwalk hne

/-- A command that takes an integer and then any number of words. -/
def ofSend : Shell Unit :=
  ((Shell.empty ">").load (.ofList [.idle "send <1-99> .WORD" false 0]) ()).shell

/-- An abbreviated keyword, an integer with a sign and zeros in front, and words in a place that may
be repeated. -/
theorem expand_texts_send :
    Shell.LoadedWith ">" [.ofList [.idle "send <1-99> .WORD" false 0]] ofSend ∧
      ∃ e, expand ofSend.root ["se", "+007", "x", "W"] false = [e] ∧
        e.values = [.word "send", .integer 7, .word "x", .word "WORD"] ∧
        expand ofSend.root ["send", "7", "x", "WORD"] false = [e] := by
  have hs : Shell.LoadedWith ">" [.ofList [.idle "send <1-99> .WORD" false 0]] ofSend :=
    .load _ () .empty (by decide +kernel)
  have hsurvey : ∀ q ∈ ofSend.root.survey,
      (q.2.element.isRecursive = true → (q.2.child? q.2.keyword).isNone = true) ∧
        q.2.keyword.toList.head?.any Char.isDigit = false := by
    decide +kernel
  have hvalues : (expand ofSend.root ["se", "+007", "x", "W"] false).map Expansion.values =
      [[.word "send", .integer 7, .word "x", .word "WORD"]] := by
    decide +kernel
  have htexts : [.word "send", .integer 7, .word "x", .word "WORD"].map Value.text =
      ["send", "7", "x", "WORD"] := by
    decide +kernel
  obtain ⟨e, he, hvalues⟩ := List.map_eq_singleton_iff.mp hvalues
  have hnodes := hs.forall_lookup hsurvey
  have hagain := expand_texts hs
    (fun p n hn hrec => Option.isNone_iff_eq_none.mp ((hnodes p n hn).1 hrec))
    (fun p n hn => (hnodes p n hn).2) he
  rw [hvalues, htexts] at hagain
  exact ⟨hs, e, he, hvalues, hagain⟩

end Shell

end Console
