import Console.Proofs.CommandSet
import Console.Proofs.Tree.Build
import Console.Spec.Compile

/-!
# What a command says about a path

* `Command.HasPath`, `Command.Denotes`, `Command.Reaches`: the paths of a command's specification,
  as elements and as keywords, and their prefixes; `Command.paths` lists them;
* `Command.labels`: the labels that a command brings to a path of keys;
* **`labels_ne_nil`**, **`handler_labels`**: it brings some where it reaches the path, and its
  handler where it denotes the path;
* **`isSome_all_labels`**, **`hidden_all_labels`**, **`handler_all_labels`**: the same for commands
  one after another, of which the last that denotes a path gives the handler.
-/

namespace Console

variable {σ : Type}

instance decidableIsOk {ε α : Type} (x : Except ε α) : Decidable (∃ a, x = .ok a) :=
  match x with
  | .ok a => isTrue ⟨a, rfl⟩
  | .error _ => isFalse nofun

namespace Command

/-- The specification of a command denotes these elements. -/
def HasPath (c : Command σ) (es : List Element) : Prop :=
  ∃ tokens, compile c.spec c.help = .ok tokens ∧ Token.Denotes tokens es

/-- These keywords are a path of the command. -/
def Denotes (c : Command σ) (p : List String) : Prop :=
  ∃ es, c.HasPath es ∧ es.map Element.keyword = p

/-- A path of the command begins with these keywords. -/
def Reaches (c : Command σ) (p : List String) : Prop := ∃ q, c.Denotes q ∧ p <+: q

/-- The paths of a command, in order. -/
def paths (c : Command σ) : List (List Element) :=
  match compile c.spec c.help with
  | .ok tokens => Token.paths tokens
  | .error _ => []

theorem hasPath_iff_mem {c : Command σ} {es : List Element} : c.HasPath es ↔ es ∈ c.paths := by
  unfold HasPath paths
  cases compile c.spec c.help with
  | ok tokens => simp [Token.mem_paths]
  | error e => simp

instance decidableDenotes (c : Command σ) (p : List String) : Decidable (c.Denotes p) :=
  decidable_of_iff (∃ es ∈ c.paths, es.map Element.keyword = p) (by
    simp only [Denotes, hasPath_iff_mem])

/-- The labels that a command brings to a path of keys, one for each of its own paths that leads
there. -/
def labels (c : Command σ) (p : List String) : List (Label (Handler σ)) :=
  match compile c.spec c.help with
  | .ok tokens => (Token.paths tokens).filterMap (Label.along c.handler c.hidden · p)
  | .error _ => []

theorem labels_of_compile {c : Command σ} {tokens : List Token}
    (h : compile c.spec c.help = .ok tokens) (p : List String) :
    c.labels p = Token.labels tokens c.handler c.hidden p := by
  rw [labels, h]
  rfl

theorem denotes_of_compile {c : Command σ} {tokens : List Token}
    (h : compile c.spec c.help = .ok tokens) {p : List String} :
    c.Denotes p ↔ Token.Spells tokens p := by
  simp only [Denotes, HasPath, h, Except.ok.injEq, exists_eq_left', Token.Spells]

theorem reaches_of_compile {c : Command σ} {tokens : List Token}
    (h : compile c.spec c.help = .ok tokens) {p : List String} :
    c.Reaches p ↔ Token.Reaches tokens p := by
  simp only [Reaches, denotes_of_compile h, Token.Reaches]

theorem mem_labels {c : Command σ} {p : List String} {l : Label (Handler σ)} :
    l ∈ c.labels p ↔ ∃ fs e gs, c.HasPath (fs ++ e :: gs) ∧
      p = (fs ++ [e]).map Element.keyword ∧
      l = ⟨e, if gs.isEmpty then some c.handler else none, c.hidden⟩ := by
  cases hc : compile c.spec c.help with
  | error d => simp [labels, HasPath, hc]
  | ok tokens =>
    rw [labels_of_compile hc, Token.mem_labels]
    simp only [HasPath, hc, Except.ok.injEq, exists_eq_left']

theorem hidden_of_mem_labels {c : Command σ} {p : List String} {l : Label (Handler σ)}
    (h : l ∈ c.labels p) : l.hidden = c.hidden := by
  obtain ⟨fs, e, gs, -, -, rfl⟩ := mem_labels.mp h
  rfl

/-- **A command brings labels to the paths that it reaches.** -/
theorem labels_ne_nil {c : Command σ} {p : List String} (hp : p ≠ []) :
    c.labels p ≠ [] ↔ c.Reaches p := by
  cases hc : compile c.spec c.help with
  | error d => simp [labels, Reaches, Denotes, HasPath, hc]
  | ok tokens => rw [labels_of_compile hc, reaches_of_compile hc, Token.labels_ne_nil hp]

/-- **A command brings its handler to the paths that it denotes.** -/
theorem handler_labels {c : Command σ} {p : List String} (hp : p ≠ []) {h : Handler σ} :
    (Label.all (c.labels p)).bind Label.handler = some h ↔ c.Denotes p ∧ c.handler = h := by
  cases hc : compile c.spec c.help with
  | error d => simp [labels, Label.all, Denotes, HasPath, hc]
  | ok tokens => rw [labels_of_compile hc, denotes_of_compile hc, Token.handler_labels hp]

/-! ## Commands one after another -/

theorem isSome_all_labels {cs : List (Command σ)} {p : List String} (hp : p ≠ []) :
    (Label.all (cs.flatMap (·.labels p))).isSome ↔ ∃ c ∈ cs, c.Reaches p := by
  rw [Option.isSome_iff_ne_none, ne_eq, Label.all_eq_none, List.flatMap_eq_nil_iff]
  push Not
  exact exists_congr fun c => and_congr_right fun _ => labels_ne_nil hp

theorem hidden_all_labels {cs : List (Command σ)} {p : List String} (hp : p ≠ [])
    {l : Label (Handler σ)} (h : Label.all (cs.flatMap (·.labels p)) = some l) :
    l.hidden = true ↔ ∀ c ∈ cs, c.Reaches p → c.hidden = true := by
  rw [Label.hidden_all h]
  constructor
  · intro hall c hc hr
    obtain ⟨m, ms, hm⟩ := List.ne_nil_iff_exists_cons.mp ((labels_ne_nil hp).mpr hr)
    have hm : m ∈ c.labels p := hm ▸ List.mem_cons_self
    rw [← hidden_of_mem_labels hm]
    exact hall m (List.mem_flatMap.mpr ⟨c, hc, hm⟩)
  · intro hall m hm
    obtain ⟨c, hc, hm⟩ := List.mem_flatMap.mp hm
    rw [hidden_of_mem_labels hm]
    exact hall c hc ((labels_ne_nil hp).mp (List.ne_nil_of_mem hm))

theorem handler_all_flatMap (cs : List (Command σ)) (p : List String) :
    (Label.all (cs.flatMap (·.labels p))).bind Label.handler =
      cs.reverse.findSome? fun c => (Label.all (c.labels p)).bind Label.handler := by
  induction cs with
  | nil => rfl
  | cons c cs ih =>
    rw [List.flatMap_cons, Label.all_append, Label.handler_joined, ih, List.reverse_cons,
      List.findSome?_append]
    cases h : (Label.all (c.labels p)).bind Label.handler <;> simp [h]

/-- **The last command that denotes a path gives the handler there.** -/
theorem handler_all_labels {cs : List (Command σ)} {p : List String} (hp : p ≠ [])
    {h : Handler σ} :
    (Label.all (cs.flatMap (·.labels p))).bind Label.handler = some h ↔
      ∃ before c after, cs = before ++ c :: after ∧ c.Denotes p ∧ c.handler = h ∧
        ∀ d ∈ after, ¬ d.Denotes p := by
  have hnone : ∀ c : Command σ,
      (Label.all (c.labels p)).bind Label.handler = none ↔ ¬ c.Denotes p := by
    intro c
    rw [Option.eq_none_iff_forall_ne_some]
    simp only [ne_eq, handler_labels hp, not_and]
    exact ⟨fun hc hd => hc _ hd rfl, fun hc _ hd => absurd hd hc⟩
  rw [handler_all_flatMap, List.findSome?_eq_some_iff]
  constructor
  · rintro ⟨l, c, r, hcs, hc, hl⟩
    obtain ⟨hden, hh⟩ := (handler_labels hp).mp hc
    refine ⟨r.reverse, c, l.reverse, ?_, hden, hh, fun d hd => ?_⟩
    · rw [← List.reverse_reverse cs, hcs]
      simp
    · exact (hnone d).mp (hl d (List.mem_reverse.mp hd))
  · rintro ⟨before, c, after, rfl, hden, hh, hafter⟩
    refine ⟨after.reverse, c, before.reverse, by simp, (handler_labels hp).mpr ⟨hden, hh⟩,
      fun d hd => ?_⟩
    exact (hnone d).mpr (hafter d (List.mem_reverse.mp hd))

theorem handler_all_labels_eq_none {cs : List (Command σ)} {p : List String} (hp : p ≠ []) :
    (Label.all (cs.flatMap (·.labels p))).bind Label.handler = none ↔
      ∀ c ∈ cs, ¬ c.Denotes p := by
  rw [handler_all_flatMap, List.findSome?_eq_none_iff]
  refine ⟨fun hall c hc hd => ?_, fun hall c hc => ?_⟩
  · have := hall c (List.mem_reverse.mpr hc)
    rw [(handler_labels hp).mpr ⟨hd, rfl⟩] at this
    cases this
  · rw [Option.eq_none_iff_forall_ne_some]
    intro h hh
    exact hall c (List.mem_reverse.mp hc) ((handler_labels hp).mp hh).1

end Command

end Console
