import Console.Spec.Token
import Console.Text.Blank

/-!
# Lexemes of a specification

A specification is read as a stream of lexemes: the group markers, and the maximal runs of other
characters. Blanks separate and are dropped, so layout has no meaning.

* `Lexeme`, `Lexeme.ofChars`.
-/

namespace Console

open Text

/-- A lexeme of a specification. -/
inductive Lexeme where
  /-- A run of characters that are neither blank nor markers. -/
  | word (text : String)
  /-- A group opens. -/
  | opens (kind : GroupKind)
  /-- A group closes. -/
  | closes (kind : GroupKind)
  /-- The next branch begins. -/
  | bar
  deriving DecidableEq

namespace Lexeme

/-- The marker that a character is, if it is one. -/
def marker? : Char → Option Lexeme
  | '(' => some (opens .alternation)
  | '{' => some (opens .permutation)
  | ')' => some (closes .alternation)
  | '}' => some (closes .permutation)
  | '|' => some bar
  | _ => none

/-- A character that an argspec may hold. -/
def isWordChar (c : Char) : Bool := (marker? c).isNone && !isBlank c

/-- The word that ends here, if one does. -/
def flush (word : List Char) : List Lexeme :=
  if word.isEmpty then [] else [Lexeme.word (String.ofList word)]

/-- The lexemes of `word ++ cs`, where `word` is the part of a word already read. -/
def scan (word : List Char) : List Char → List Lexeme
  | [] => flush word
  | c :: cs =>
    match marker? c with
    | some m => flush word ++ m :: scan [] cs
    | none => if isBlank c then flush word ++ scan [] cs else scan (word ++ [c]) cs

/-- The lexemes of a specification. -/
def ofChars (cs : List Char) : List Lexeme := scan [] cs

end Lexeme

end Console
