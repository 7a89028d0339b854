import Console.Element

/-!
# Specifications as tokens

A compiled specification is a sequence of tokens, each an element or a group of branches. Of an
alternation one branch is taken, of a permutation any non-empty choice of branches in any order.

* `Token`: elements and groups;
* `Token.render`, `Token.renderSeq`: a specification that compiles to the tokens;
* `Token.elements`: the elements from left to right.
-/

namespace Console

/-- The kinds of group. -/
inductive GroupKind where
  | alternation
  | permutation
  deriving DecidableEq

namespace GroupKind

/-- The marker that opens a group. -/
def opening : GroupKind → Char
  | .alternation => '('
  | .permutation => '{'

/-- The marker that closes a group. -/
def closing : GroupKind → Char
  | .alternation => ')'
  | .permutation => '}'

end GroupKind

/-- A part of a specification. -/
inductive Token where
  | element (e : Element)
  | group (kind : GroupKind) (branches : List (List Token))

namespace Token

/-! ## Equality -/

mutual

/-- Decides whether two tokens are equal. -/
def decEq : (t u : Token) → Decidable (t = u)
  | element e, element f =>
    if h : e = f then .isTrue (h ▸ rfl) else .isFalse fun k => h (by cases k; rfl)
  | element _, group _ _ => .isFalse fun k => by cases k
  | group _ _, element _ => .isFalse fun k => by cases k
  | group k bs, group l cs =>
    if h : k = l then
      match decEqBranches bs cs with
      | .isTrue hb => .isTrue (by rw [h, hb])
      | .isFalse hb => .isFalse fun e => hb (by cases e; rfl)
    else .isFalse fun e => h (by cases e; rfl)

/-- Decides whether two sequences of tokens are equal. -/
def decEqSeq : (ts us : List Token) → Decidable (ts = us)
  | [], [] => .isTrue rfl
  | [], _ :: _ => .isFalse fun k => by cases k
  | _ :: _, [] => .isFalse fun k => by cases k
  | t :: ts, u :: us =>
    match decEq t u, decEqSeq ts us with
    | .isTrue h, .isTrue hs => .isTrue (by rw [h, hs])
    | .isFalse h, _ => .isFalse fun k => h (by cases k; rfl)
    | _, .isFalse h => .isFalse fun k => h (by cases k; rfl)

/-- Decides whether two lists of branches are equal. -/
def decEqBranches : (bs cs : List (List Token)) → Decidable (bs = cs)
  | [], [] => .isTrue rfl
  | [], _ :: _ => .isFalse fun k => by cases k
  | _ :: _, [] => .isFalse fun k => by cases k
  | b :: bs, c :: cs =>
    match decEqSeq b c, decEqBranches bs cs with
    | .isTrue h, .isTrue hs => .isTrue (by rw [h, hs])
    | .isFalse h, _ => .isFalse fun k => h (by cases k; rfl)
    | _, .isFalse h => .isFalse fun k => h (by cases k; rfl)

end

instance : DecidableEq Token := decEq

/-! ## Rendering -/

mutual

/-- The text of a token: an element's argspec, or the branches between the group's markers. -/
def render : Token → String
  | element e => e.argspec
  | group kind branches =>
    String.singleton kind.opening ++ renderBranches branches ++ String.singleton kind.closing

/-- The texts of some tokens, joined by spaces. -/
def renderSeq : List Token → String
  | [] => ""
  | [t] => t.render
  | t :: ts => t.render ++ " " ++ renderSeq ts

/-- The texts of some branches, joined by bars. -/
def renderBranches : List (List Token) → String
  | [] => ""
  | [b] => renderSeq b
  | b :: bs => renderSeq b ++ " | " ++ renderBranches bs

end

/-! ## Elements -/

mutual

/-- The elements of a token from left to right, through all groups and branches. -/
def elements : Token → List Element
  | element e => [e]
  | group _ branches => branchElements branches

/-- The elements of some tokens from left to right. -/
def seqElements : List Token → List Element
  | [] => []
  | t :: ts => t.elements ++ seqElements ts

/-- The elements of some branches from left to right. -/
def branchElements : List (List Token) → List Element
  | [] => []
  | b :: bs => seqElements b ++ branchElements bs

end

end Token

end Console
