import Console.Yaml.Node

/-!
# Documents

A stream has to hold one document at most. It has a root, and its anchors say what its aliases stand
for.

* `Document`, `Document.scalar?`: a document, and the scalar that a node of it stands for;
* `Document.ofTokens`, `Document.ofBytes`: the only document of a stream, if it has one; nothing
  where the stream is malformed or there is a second document.
-/

namespace Console.Yaml

open Node

/-- A document. -/
structure Document where
  root : Node
  /-- The scalars at the anchors by number, the last anchor first; nothing for a collection. -/
  anchors : List (Nat × Option Scalar)

namespace Document

/-- The scalar that a node is or stands for. -/
def scalar? (d : Document) : Node → Option Scalar
  | .scalar s => some s
  | .alias number => (d.anchors.lookup number).join
  | _ => none

/-- The handles that have a meaning in every document. -/
def standardHandles : List (String × List UInt8) :=
  [("!", Text.Utf8.encode "!"), ("!!", Text.Utf8.encode "tag:yaml.org,2002:")]

/-- Reads the directives before a document. There is at most one version, which has to be 1.1 or
1.2, and each handle is given one meaning. -/
def directives (version : Bool) (handles : List (String × List UInt8)) : Nat → Parse Unit
  | 0 => refuse
  | fuel + 1 => do
    match ← peek with
    | .version major minor =>
      skip
      if version || major != 1 || (minor != 1 && minor != 2) then refuse
      directives true handles fuel
    | .tagHandle handle meaning =>
      skip
      if (handles.lookup handle).isSome then refuse
      directives version ((handle, meaning) :: handles) fuel
    | _ => fun r => some ((), { r with handles := handles ++ standardHandles })

/-- Stands before a document and tells how to read it. -/
def isDirective : Token → Bool
  | .version .. => true
  | .tagHandle .. => true
  | _ => false

/-- Reads the root of the only document of a stream. -/
def soleRoot (fuel : Nat) : Parse (Option Node) := do
  let t ← peek
  if t == .streamEnd then return none
  let n ←
    if isDirective t || t == .documentStart then do
      directives false [] fuel
      expect .documentStart
      let t ← peek
      if isDirective t || t == .documentStart || t == .documentEnd || t == .streamEnd then
        pure empty
      else node true false fuel
    else node true false fuel
  fun r => some ((), { r with tokens := r.tokens.dropWhile (· == .documentEnd) })
  expect .streamEnd
  return some n

/-- The only document of a stream, or nothing inside if there is none. -/
def ofTokens (ts : List Token) : Option (Option Document) :=
  ((soleRoot (4 * ts.length + 8)).run ⟨ts, [], [], standardHandles⟩).map fun (root, r) =>
    root.map (⟨·, r.anchors⟩)

/-- The only document in some bytes. -/
def ofBytes (bytes : List UInt8) : Option (Option Document) := do
  let text ← Text.Utf8.decode bytes
  let cells ← Cell.ofText text.toList
  ofTokens (← Token.ofCells cells)

end Document

end Console.Yaml
