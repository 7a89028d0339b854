import Console.Proofs.Spec.RoundTrip
import Console.Tree.Build

/-!
# Adding commands token by token

A command can also be added to a tree without its paths at hand. An element leads to the child with
its keyword. A group starts again at the same node for each of its arrangements, put in front of the
tokens behind the group, so that nodes which several paths share are visited several times.

* `Token.Branching`: every group has a branch; **`branching_of_compile`**: so it is in a
  specification that compiles; `Branching.exists_denotes`;
* `CommandTree.splice`: adds a command token by token;
* `foldl_attach_cons`: paths with the same first element are attached below one child;
* **`splice_eq_build`**: this adds the command along the paths of the tokens.
-/

namespace Console

universe u

variable {η : Type u}

namespace Token

/-- Every group has a branch, at every depth. -/
inductive Branching : List Token → Prop where
  | nil : Branching []
  | element (e : Element) {ts : List Token} (rest : Branching ts) : Branching (element e :: ts)
  | group (kind : GroupKind) {branches : List (List Token)} {ts : List Token} (ne : branches ≠ [])
    (inner : ∀ b ∈ branches, Branching b) (rest : Branching ts) :
    Branching (group kind branches :: ts)

theorem Branching.append {ts us : List Token} (h : Branching ts) (hu : Branching us) :
    Branching (ts ++ us) := by
  induction h with
  | nil => exact hu
  | element e _ ih => exact .element e ih
  | group kind ne inner _ _ ih => exact .group kind ne inner ih

theorem Branching.flatten {bs : List (List Token)} (h : ∀ b ∈ bs, Branching b) :
    Branching bs.flatten := by
  induction bs with
  | nil => exact .nil
  | cons b bs ih =>
    obtain ⟨hb, hbs⟩ := List.forall_mem_cons.mp h
    exact hb.append (ih hbs)

theorem Branching.of_singletons {ts : List Token} (h : ∀ t ∈ ts, Branching [t]) :
    Branching ts := by
  induction ts with
  | nil => exact .nil
  | cons t ts ih =>
    obtain ⟨ht, hts⟩ := List.forall_mem_cons.mp h
    exact ht.append (ih hts)

theorem WellFormed.branching {inGroup : Bool} {t : Token} (h : t.WellFormed inGroup) :
    Branching [t] := by
  induction h with
  | element description h => exact .element _ .nil
  | group ne limit inner ih =>
    exact .group _ ne (fun b hb => .of_singletons (ih b hb)) .nil

theorem branching_of_compile {spec : String} {help : List String} {tokens : List Token}
    (h : compile spec help = .ok tokens) : Branching tokens :=
  .of_singletons fun t ht => ((wellFormed_of_compile h).2 t ht).branching

theorem Branching.of_mem_arrangements {kind : GroupKind} {branches : List (List Token)}
    (h : ∀ b ∈ branches, Branching b) {a : List Token} (ha : a ∈ arrangements kind branches) :
    Branching a := by
  cases kind with
  | alternation => exact h a ha
  | permutation =>
    obtain ⟨s, hs, rfl⟩ := List.mem_map.mp ha
    obtain ⟨places, -, -, rfl⟩ := Selection.mem_selections.mp hs
    refine Branching.flatten fun b hb => ?_
    obtain ⟨i, -, rfl⟩ := List.mem_map.mp hb
    exact h _ (List.get_mem branches i)

theorem Branching.exists_denotes {ts : List Token} (h : Branching ts) : ∃ es, Denotes ts es := by
  induction h with
  | nil => exact ⟨[], .nil⟩
  | element e _ ih =>
    obtain ⟨es, hes⟩ := ih
    exact ⟨e :: es, .element e hes⟩
  | @group kind branches ts ne inner rest ihb ih =>
    obtain ⟨es, hes⟩ := ih
    obtain ⟨b, bs, rfl⟩ := List.exists_cons_of_ne_nil ne
    obtain ⟨xs, hxs⟩ := ihb b List.mem_cons_self
    refine ⟨xs ++ es, ?_⟩
    cases kind with
    | alternation => exact .alternation List.mem_cons_self hxs hes
    | permutation =>
      have htaken : Denotes ([⟨0, Nat.succ_pos _⟩].map (b :: bs).get).flatten xs := by
        simpa using hxs
      exact .permutation _ (List.cons_ne_nil _ _) (List.nodup_singleton _) htaken hes

theorem Branching.paths_ne_nil {ts : List Token} (h : Branching ts) : paths ts ≠ [] := by
  obtain ⟨es, hes⟩ := h.exists_denotes
  exact List.ne_nil_of_mem (mem_paths.mpr hes)

end Token

theorem Children.insert_insert (key : String) (c d : CommandTree η) (cs : Children η) :
    (cs.insert key c).insert key d = cs.insert key d := by
  fun_induction insert key c cs with
  | case1 => simp [insert]
  | case2 k b rest hlt => simp [insert, hlt]
  | case3 b rest => simp [insert]
  | case4 k b rest hlt hne ih => simp [insert, hlt, hne, ih]

namespace CommandTree

/-- Adds a command token by token. -/
def splice (handler : η) (hidden : Bool) : List Token → CommandTree η → CommandTree η
  | [], node f _ old cs => node f (some handler) old cs
  | .element e :: ts, node f h old cs =>
    let child := splice handler hidden ts (stepInto e hidden (cs.get? e.keyword))
    node f h old (cs.insert e.keyword child)
  | .group kind branches :: ts, t =>
    (Token.arrangements kind branches).attach.foldl
      (fun t a => splice handler hidden (a.1 ++ ts) t) t
termination_by ts => Token.seqWeight ts
decreasing_by
  · simp [Token.seqWeight, Token.weight]
  · have := Token.seqWeight_le_of_mem_arrangements a.2
    simp only [Token.seqWeight_append, Token.seqWeight, Token.weight]
    omega

theorem hidden_attach (handler : η) (hidden : Bool) (es : List Element) (t : CommandTree η) :
    (attach handler hidden es t).hidden = t.hidden := by
  cases t
  cases es <;> rfl

theorem stepInto_of_hidden {e : Element} {hidden : Bool} {c : CommandTree η}
    (h : (c.hidden && hidden) = c.hidden) : stepInto e hidden (some c) = c := by
  obtain ⟨f, handler, old, cs⟩ := c
  exact congrArg (node f handler · cs) h

theorem hidden_stepInto (e : Element) (hidden : Bool) (o : Option (CommandTree η)) :
    ((stepInto e hidden o).hidden && hidden) = (stepInto e hidden o).hidden := by
  cases o with
  | none => exact Bool.and_self hidden
  | some c =>
    obtain ⟨f, handler, old, cs⟩ := c
    exact (Bool.and_assoc old hidden hidden).trans (congrArg (old && ·) (Bool.and_self hidden))

theorem foldl_attach_cons (handler : η) (hidden : Bool) (e f : Element) (h : Option η) (old : Bool)
    (cs : Children η) {paths : List (List Element)} (hne : paths ≠ []) :
    (paths.map (e :: ·)).foldl (fun t path => attach handler hidden path t) (node f h old cs) =
      node f h old (cs.insert e.keyword
        (paths.foldl (fun t path => attach handler hidden path t)
          (stepInto e hidden (cs.get? e.keyword)))) := by
  -- Once the child is there, further paths step into it and find it no more hidden than they are.
  have hgo : ∀ (paths : List (List Element)) (c : CommandTree η),
      (c.hidden && hidden) = c.hidden →
      (paths.map (e :: ·)).foldl (fun t path => attach handler hidden path t)
          (node f h old (cs.insert e.keyword c)) =
        node f h old (cs.insert e.keyword
          (paths.foldl (fun t path => attach handler hidden path t) c)) := by
    intro paths
    induction paths with
    | nil => exact fun _ _ => rfl
    | cons es paths ih =>
      intro c hc
      rw [List.map_cons, List.foldl_cons, List.foldl_cons, ← ih _ (by rwa [hidden_attach])]
      rw [attach, Children.get?_insert_self, stepInto_of_hidden hc, Children.insert_insert]
  obtain ⟨es, paths, rfl⟩ := List.exists_cons_of_ne_nil hne
  rw [List.map_cons, List.foldl_cons, List.foldl_cons,
    ← hgo _ _ (by rw [hidden_attach, hidden_stepInto])]
  rfl

/-- **Token by token, a command is added along the paths of its tokens.** -/
theorem splice_eq_build {tokens : List Token} (h : Token.Branching tokens) (handler : η)
    (hidden : Bool) (t : CommandTree η) :
    splice handler hidden tokens t = t.build tokens handler hidden := by
  unfold build
  fun_induction splice handler hidden tokens t with
  | case1 f _ old cs => rw [Token.paths]; rfl
  | case2 e ts f h' old cs child ih =>
    cases h with
    | element _ rest =>
      rw [Token.paths, foldl_attach_cons _ _ _ _ _ _ _ rest.paths_ne_nil, ← ih rest]
  | case3 kind branches ts t ih =>
    cases h with
    | group _ ne inner rest =>
      rw [Token.paths, List.foldl_flatMap]
      refine List.foldl_ext _ _ _ fun t a _ => ?_
      exact ih t a ((Token.Branching.of_mem_arrangements inner a.2).append rest)

end CommandTree

end Console
