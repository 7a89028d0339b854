import Console.Error
import Console.Spec.Lexeme

/-!
# Compiling a specification

The lexemes of a specification are read from left to right with a stack of the groups still open.
Help texts are handed out one per element, in the order of the elements; an element without one
gets the empty text. The first marker that is out of place ends the compilation.

* `Compile.step`: what one lexeme does;
* `compile`: the tokens of a specification, or the error that names it.
-/

namespace Console

open Text

namespace Compile

/-- The most branches that a permutation group may have: its choices are factorial in number. -/
def branchLimit : Nat := 6

/-- A group whose end has not been read. -/
structure OpenGroup where
  kind : GroupKind
  /-- The branches before the current one. -/
  branches : List (List Token)
  /-- The branch being read. -/
  current : List Token

/-- What has been read of a specification. -/
structure State where
  /-- Help texts not handed out yet. -/
  help : List String
  /-- The tokens outside all open groups. -/
  outer : List Token
  /-- The open groups, the innermost first. -/
  groups : List OpenGroup

/-- What is wrong with a specification. -/
inductive Defect where
  | unbalanced
  | tooManyBranches (branches : Nat)
  deriving DecidableEq

/-- The error of a specification that has a defect. -/
def Defect.toError (spec : String) : Defect → Error
  | unbalanced => .unbalanced spec
  | tooManyBranches n => .tooManyBranches spec n branchLimit

/-- Adds a token to the branch being read. -/
def State.push (t : Token) (s : State) : State :=
  match s.groups with
  | [] => { s with outer := s.outer ++ [t] }
  | g :: gs => { s with groups := { g with current := g.current ++ [t] } :: gs }

/-- What one lexeme does. -/
def step (s : State) : Lexeme → Except Defect State
  | .word text =>
    let e := Element.ofArgspec text (s.help.head?.getD "") !s.groups.isEmpty
    .ok ({ s with help := s.help.tail }.push (.element e))
  | .opens kind => .ok { s with groups := ⟨kind, [], []⟩ :: s.groups }
  | .closes kind =>
    match s.groups with
    | [] => .error .unbalanced
    | g :: gs =>
      if g.kind = kind then
        let branches := g.branches ++ [g.current]
        if kind = .permutation ∧ branchLimit < branches.length then
          .error (.tooManyBranches branches.length)
        else .ok ({ s with groups := gs }.push (.group kind branches))
      else .error .unbalanced
  | .bar =>
    match s.groups with
    | [] => .error .unbalanced
    | g :: gs =>
      .ok { s with groups := { g with branches := g.branches ++ [g.current], current := [] } :: gs }

/-- The tokens of a specification that has been read to its end. -/
def finish (s : State) : Except Defect (List Token) :=
  if s.groups.isEmpty then .ok s.outer else .error .unbalanced

/-- The tokens of a stream of lexemes. -/
def ofLexemes (help : List String) (ls : List Lexeme) : Except Defect (List Token) := do
  finish (← ls.foldlM step ⟨help, [], []⟩)

end Compile

/-- The tokens of a specification. An error names the specification without its outer blanks. -/
def compile (spec : String) (help : List String) : Except Error (List Token) :=
  let spec := trim spec
  (Compile.ofLexemes help (Lexeme.ofChars spec.toList)).mapError (Compile.Defect.toError spec)

end Console
