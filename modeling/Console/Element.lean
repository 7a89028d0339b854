import Console.Converter

/-!
# Elements

One word of a command specification. It is written as an argspec: its keyword, after leading dots
if the word may be repeated.

* `Element.ofArgspec`: the element that an argspec stands for;
* `Element.root`: the element at the top of every command tree.
-/

namespace Console

/-- One word of a command specification. -/
structure Element where
  /-- The word as it was written. -/
  argspec : String
  /-- What it is known by: the argspec without its leading dots. -/
  keyword : String
  /-- Its help text. -/
  description : String
  /-- The kind of place that it is, if it is one. -/
  converter : Option Converter
  /-- What is typed for it is handed to the command. -/
  isArgument : Bool
  /-- It takes any number of fragments. -/
  isRecursive : Bool
  deriving DecidableEq

namespace Element

/-- The keyword of an argspec. -/
def keywordOf (argspec : String) : String := String.ofList (argspec.toList.dropWhile (· == '.'))

/-- The element that an argspec stands for. What is typed for it is an argument when it stands in
a group or is a typed place. -/
def ofArgspec (argspec description : String) (inGroup : Bool) : Element :=
  let keyword := keywordOf argspec
  let converter := Converter.resolve keyword
  { argspec, keyword, description, converter
    isArgument := inGroup || converter.isSome
    isRecursive := argspec.toList.head? == some '.' }

/-- The element at the top of every command tree. -/
def root : Element := ofArgspec "_root" "" false

end Element

end Console
