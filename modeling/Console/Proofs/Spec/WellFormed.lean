import Console.Proofs.Spec.Denotes
import Console.Proofs.Spec.Lexeme

/-!
# Well-formed tokens and their lexemes

The text of well-formed tokens, read as lexemes, is the bracketed word of their tree.

* `Token.WellFormed`: every group has branches, and every element is that of an argspec;
* `Denotes.forall_of_wellFormed`: so is every element of what well-formed tokens denote;
* `IsKeyword`, `Denotes.isKeyword`: the keywords of these elements;
* `Token.lexemes`, `seqLexemes`, `barredLexemes`, `branchLexemes`: the lexemes of a tree of tokens;
* **`ofChars_renderSeq`**: the text of well-formed tokens has the lexemes of their tree.
-/

namespace Console

/-- The element is that of an argspec. -/
def Element.IsCompiled (e : Element) : Prop :=
  ∃ argspec description inGroup, e = .ofArgspec argspec description inGroup

open Text in
/-- A text that a specification can hold as a keyword: it has no blank, no marker of a group, and no
dot in front. -/
def IsKeyword (k : String) : Prop :=
  (∀ c ∈ k.toList, isBlank c = false ∧ c ∉ ['(', ')', '{', '}', '|']) ∧ k.toList.head? ≠ some '.'

theorem isKeyword_keywordOf {argspec : String} (h : IsArgspec argspec) :
    IsKeyword (Element.keywordOf argspec) := by
  unfold IsKeyword Element.keywordOf
  rw [String.toList_ofList]
  refine ⟨fun c hc => h.2 c ((List.dropWhile_suffix _).subset hc), fun hdot => ?_⟩
  have := List.head?_dropWhile_not (· == '.') argspec.toList
  rw [hdot] at this
  exact absurd this (by decide)

namespace Token

open Text Lexeme

/-- Every group has a branch, and a permutation has at most six. Every element is that of an
argspec, in a group or outside all groups as it stands there. -/
inductive WellFormed : Bool → Token → Prop where
  | element {inGroup : Bool} {argspec : String} (description : String) (h : IsArgspec argspec) :
    WellFormed inGroup (element (.ofArgspec argspec description inGroup))
  | group {inGroup : Bool} {kind : GroupKind} {branches : List (List Token)} (ne : branches ≠ [])
    (limit : kind = .permutation → branches.length ≤ 6)
    (inner : ∀ b ∈ branches, ∀ t ∈ b, WellFormed true t) :
    WellFormed inGroup (group kind branches)

/-- What well-formed tokens denote consists of elements of argspecs, marked as standing in a group
wherever the tokens stand in one. -/
theorem Denotes.forall_of_wellFormed {P : Element → Prop} {ts : List Token} {es : List Element}
    (h : Denotes ts es) {inGroup : Bool} (hw : ∀ t ∈ ts, t.WellFormed inGroup)
    (hP : ∀ argspec description inside, (inGroup = true → inside = true) → IsArgspec argspec →
      P (.ofArgspec argspec description inside)) : ∀ e ∈ es, P e := by
  induction h generalizing inGroup with
  | nil => exact fun e he => absurd he List.not_mem_nil
  | @element ts es e rest ih =>
    intro f hf
    rcases List.mem_cons.mp hf with rfl | hf
    · cases hw _ List.mem_cons_self with
      | element description h => exact hP _ _ _ id h
    · exact ih (fun t ht => hw t (List.mem_cons_of_mem _ ht)) hP f hf
  | @alternation branches b ts xs es mem taken rest ihb ih =>
    intro f hf
    rcases List.mem_append.mp hf with hf | hf
    · cases hw _ List.mem_cons_self with
      | group ne limit inner =>
        exact ihb (inner b mem) (fun a d i hi => hP a d i fun _ => hi rfl) f hf
    · exact ih (fun t ht => hw t (List.mem_cons_of_mem _ ht)) hP f hf
  | @permutation branches ts xs es places ne distinct taken rest ihb ih =>
    intro f hf
    rcases List.mem_append.mp hf with hf | hf
    · cases hw _ List.mem_cons_self with
      | group ne limit inner =>
        have htaken : ∀ t ∈ (places.map branches.get).flatten, t.WellFormed true := by
          intro t ht
          obtain ⟨b, hb, ht⟩ := List.mem_flatten.mp ht
          obtain ⟨i, -, rfl⟩ := List.mem_map.mp hb
          exact inner _ (List.get_mem branches i) t ht
        exact ihb htaken (fun a d i hi => hP a d i fun _ => hi rfl) f hf
    · exact ih (fun t ht => hw t (List.mem_cons_of_mem _ ht)) hP f hf

theorem Denotes.isCompiled {ts : List Token} {es : List Element} (h : Denotes ts es)
    {inGroup : Bool} (hw : ∀ t ∈ ts, t.WellFormed inGroup) : ∀ e ∈ es, e.IsCompiled :=
  h.forall_of_wellFormed hw fun _ _ _ _ _ => ⟨_, _, _, rfl⟩

theorem Denotes.isKeyword {ts : List Token} {es : List Element} (h : Denotes ts es)
    {inGroup : Bool} (hw : ∀ t ∈ ts, t.WellFormed inGroup) : ∀ e ∈ es, IsKeyword e.keyword :=
  h.forall_of_wellFormed hw fun _ _ _ _ h => isKeyword_keywordOf h

/-! ## The lexemes of a tree -/

mutual

/-- The lexemes of a token. -/
def lexemes : Token → List Lexeme
  | element e => [.word e.argspec]
  | group kind [] => [.opens kind, .closes kind]
  | group kind (b :: bs) => .opens kind :: (seqLexemes b ++ barredLexemes bs ++ [.closes kind])

/-- The lexemes of some tokens. -/
def seqLexemes : List Token → List Lexeme
  | [] => []
  | t :: ts => t.lexemes ++ seqLexemes ts

/-- The lexemes of some branches, each after a bar. -/
def barredLexemes : List (List Token) → List Lexeme
  | [] => []
  | b :: bs => .bar :: (seqLexemes b ++ barredLexemes bs)

end

/-- The lexemes of some branches, with bars between them. -/
def branchLexemes : List (List Token) → List Lexeme
  | [] => []
  | b :: bs => seqLexemes b ++ barredLexemes bs

theorem lexemes_group (kind : GroupKind) (branches : List (List Token)) :
    (group kind branches).lexemes = .opens kind :: (branchLexemes branches ++ [.closes kind]) := by
  cases branches with
  | nil => rfl
  | cons b bs => rfl

theorem seqLexemes_append (ts us : List Token) :
    seqLexemes (ts ++ us) = seqLexemes ts ++ seqLexemes us := by
  induction ts with
  | nil => rfl
  | cons t ts ih => rw [List.cons_append, seqLexemes, seqLexemes, ih, List.append_assoc]

theorem seqLexemes_singleton (t : Token) : seqLexemes [t] = t.lexemes := List.append_nil _

theorem barredLexemes_append (bs cs : List (List Token)) :
    barredLexemes (bs ++ cs) = barredLexemes bs ++ barredLexemes cs := by
  induction bs with
  | nil => rfl
  | cons b bs ih =>
    rw [List.cons_append, barredLexemes, barredLexemes, ih, List.cons_append, List.append_assoc]

theorem branchLexemes_append {bs : List (List Token)} (h : bs ≠ []) (b : List Token) :
    branchLexemes (bs ++ [b]) = branchLexemes bs ++ .bar :: seqLexemes b := by
  cases bs with
  | nil => exact absurd rfl h
  | cons c cs =>
    rw [List.cons_append, branchLexemes, branchLexemes, barredLexemes_append, barredLexemes,
      barredLexemes, List.append_nil, List.append_assoc]

theorem branchLexemes_grow (bs : List (List Token)) (b ts : List Token) :
    branchLexemes (bs ++ [b ++ ts]) = branchLexemes (bs ++ [b]) ++ seqLexemes ts := by
  by_cases h : bs = []
  · subst h
    simp only [List.nil_append, branchLexemes, barredLexemes, List.append_nil, seqLexemes_append]
  · rw [branchLexemes_append h, branchLexemes_append h, seqLexemes_append, List.append_assoc,
      List.cons_append]

/-! ## The lexemes of a text -/

theorem ofChars_opening (kind : GroupKind) (cs : List Char) :
    ofChars (kind.opening :: cs) = .opens kind :: ofChars cs := by
  cases kind with
  | alternation => exact ofChars_marker rfl
  | permutation => exact ofChars_marker rfl

theorem ofChars_append_closing (kind : GroupKind) (cs : List Char) :
    ofChars (cs ++ [kind.closing]) = ofChars cs ++ [.closes kind] := by
  cases kind with
  | alternation => exact ofChars_append_marker rfl
  | permutation => exact ofChars_append_marker rfl

theorem ofChars_seq {ts : List Token}
    (h : ∀ t ∈ ts, ofChars t.render.toList = t.lexemes) :
    ofChars (renderSeq ts).toList = seqLexemes ts := by
  induction ts with
  | nil => rfl
  | cons t ts ih =>
    have ht := h t List.mem_cons_self
    have hts := ih fun u hu => h u (List.mem_cons_of_mem t hu)
    cases ts with
    | nil =>
      rw [seqLexemes_singleton]
      exact ht
    | cons u us =>
      have htext : (renderSeq (t :: u :: us)).toList =
          t.render.toList ++ ' ' :: (renderSeq (u :: us)).toList := by
        simp [renderSeq]
      rw [htext, ofChars_append_blank (by decide), ht, hts]
      rfl

theorem ofChars_branches {bs : List (List Token)}
    (h : ∀ b ∈ bs, ofChars (renderSeq b).toList = seqLexemes b) :
    ofChars (renderBranches bs).toList = branchLexemes bs := by
  induction bs with
  | nil => rfl
  | cons b bs ih =>
    have hb := h b List.mem_cons_self
    have hbs := ih fun c hc => h c (List.mem_cons_of_mem b hc)
    cases bs with
    | nil => exact hb.trans (List.append_nil _).symm
    | cons c cs =>
      have htext : (renderBranches (b :: c :: cs)).toList =
          (renderSeq b).toList ++
            ' ' :: ([] ++ '|' :: ' ' :: (renderBranches (c :: cs)).toList) := by
        simp [renderBranches]
      rw [htext, ofChars_append_blank (by decide), ofChars_append_marker (m := .bar) rfl,
        ofChars_blank (by decide), hb, hbs]
      rfl

theorem ofChars_render {inGroup : Bool} {t : Token} (h : t.WellFormed inGroup) :
    ofChars t.render.toList = t.lexemes := by
  induction h with
  | element description h => exact ofChars_word h
  | @group _ kind branches ne limit inner ih =>
    have htext : (group kind branches).render.toList =
        kind.opening :: ((renderBranches branches).toList ++ [kind.closing]) := by
      simp [render]
    rw [htext, ofChars_opening, ofChars_append_closing, lexemes_group,
      ofChars_branches fun b hb => ofChars_seq (ih b hb)]

/-- **The text of well-formed tokens has the lexemes of their tree.** -/
theorem ofChars_renderSeq {inGroup : Bool} {ts : List Token} (h : ∀ t ∈ ts, t.WellFormed inGroup) :
    ofChars (renderSeq ts).toList = seqLexemes ts :=
  ofChars_seq fun t ht => ofChars_render (h t ht)

end Token

end Console
