import Console.Yaml.Token

/-!
# Nodes of a document

The nodes of a document are built from its tokens. Anchors are numbered, and an alias is known by
the number of its anchor.

* `Scalar`, `Node`;
* `Node.Reading`, `Node.Parse`: what is left to be read, and a step of reading;
* `Node.node`: reads a node.
-/

namespace Console.Yaml

/-- A text with the way it is written and its tag, which is given by its bytes. -/
structure Scalar where
  text : String
  style : Style
  tag : Option (List UInt8)
  deriving DecidableEq

/-- The nodes. -/
inductive Node where
  | scalar (s : Scalar)
  | sequence (items : List Node)
  | mapping (entries : List (Node × Node))
  /-- Stands for the node at the anchor with a number. -/
  | alias (number : Nat)

namespace Node

/-- The node that is not written. -/
def empty : Node := .scalar ⟨"", .plain, none⟩

instance : Inhabited Node := ⟨empty⟩

/-- What is left to be read, and what the names in it mean. -/
structure Reading where
  tokens : List Token
  /-- The names of anchors with the number that each stands for. -/
  names : List (String × Nat)
  /-- The scalars at the anchors by number, the last anchor first; nothing for a collection. -/
  anchors : List (Nat × Option Scalar)
  /-- The meaning of the handles of tags. -/
  handles : List (String × List UInt8)

/-- A step of reading. -/
abbrev Parse := StateT Reading Option

/-- The next token. -/
def peek : Parse Token := fun r => some (r.tokens.headD .streamEnd, r)

/-- Passes over the next token. -/
def skip : Parse Unit := fun r => some ((), { r with tokens := r.tokens.tail })

/-- Refuses the document. -/
def refuse {α : Type} : Parse α := fun _ => none

/-- Passes over one given token. -/
def expect (t : Token) : Parse Unit := do
  if (← peek) == t then skip else refuse

/-- Notes the anchor of a node, and the scalar that the node is. Its number is how many names were
known before it. A name that is given again is no new one: the next name that is new gets the same
number, and then the last anchor with that number counts. -/
def anchorAt (name : Option String) (s : Option Scalar) : Parse Unit := fun r =>
  match name with
  | none => some ((), r)
  | some name =>
    let number := r.names.length
    some ((), { r with
      names := (name, number) :: r.names.filter (·.1 != name)
      anchors := (number, s) :: r.anchors })

/-- The number that a name stands for. -/
def numberOf (name : String) : Parse Nat := fun r => (r.names.lookup name).map fun n => (n, r)

/-- The meaning of a tag. -/
def resolveTag (t : TagName) : Parse (List UInt8) := fun r =>
  if t.handle.isEmpty then some (t.suffix, r)
  else (r.handles.lookup t.handle).map fun meaning => (meaning ++ t.suffix, r)

/-- The anchor and the tag before a node, in either order. -/
def properties : Parse (Option String × Option TagName) := do
  match ← peek with
  | .anchor name =>
    skip
    match ← peek with
    | .tag t => do skip; return (some name, some t)
    | _ => return (some name, none)
  | .tag t =>
    skip
    match ← peek with
    | .anchor name => do skip; return (some name, some t)
    | _ => return (none, some t)
  | _ => return (none, none)

/-- Ends an entry of a flow collection that has no content. -/
def endsFlow (close : Token) (t : Token) : Bool := t == .flowEntry || t == close

/-- Ends an entry of a block mapping that has no content. -/
def endsPair (t : Token) : Bool := t == .key || t == .value || t == .blockEnd

mutual

/-- Reads a node. Block collections are read where `inBlock`; a block sequence may stand at the
column of the mapping around it where `indentless`. -/
def node (inBlock indentless : Bool) : Nat → Parse Node
  | 0 => refuse
  | fuel + 1 => do
    if let .alias name ← peek then
      skip
      return .alias (← numberOf name)
    let (anchor, tagName) ← properties
    let tag ← tagName.mapM resolveTag
    let collect (content : Parse Node) : Parse Node := do
      anchorAt anchor none
      content
    let leaf (s : Scalar) : Parse Node := do
      anchorAt anchor (some s)
      return scalar s
    let t ← peek
    if indentless && t == .blockEntry then collect (sequence <$> indentlessItems fuel)
    else
      match t with
      | .scalar style text => do skip; leaf ⟨text, style, tag⟩
      | .flowSequenceStart => do skip; collect (sequence <$> flowItems true fuel)
      | .flowMappingStart => do skip; collect (mapping <$> flowPairs true fuel)
      | .blockSequenceStart =>
        if inBlock then do skip; collect (sequence <$> blockItems fuel) else refuse
      | .blockMappingStart =>
        if inBlock then do skip; collect (mapping <$> blockPairs fuel) else refuse
      | _ =>
        if anchor.isSome || tag.isSome then leaf ⟨"", .plain, tag⟩ else refuse

/-- Reads the items of a block sequence. -/
def blockItems : Nat → Parse (List Node)
  | 0 => refuse
  | fuel + 1 => do
    match ← peek with
    | .blockEnd => do skip; return []
    | .blockEntry =>
      skip
      let t ← peek
      let n ← if t == .blockEntry || t == .blockEnd then pure empty else node true false fuel
      return n :: (← blockItems fuel)
    | _ => refuse

/-- Reads the items of a block sequence that is not indented. -/
def indentlessItems : Nat → Parse (List Node)
  | 0 => refuse
  | fuel + 1 => do
    match ← peek with
    | .blockEntry =>
      skip
      let t ← peek
      let n ← if t == .blockEntry || endsPair t then pure empty else node true false fuel
      return n :: (← indentlessItems fuel)
    | _ => return []

/-- Reads the entries of a block mapping. -/
def blockPairs : Nat → Parse (List (Node × Node))
  | 0 => refuse
  | fuel + 1 => do
    match ← peek with
    | .blockEnd => do skip; return []
    | .key =>
      skip
      let k ← if endsPair (← peek) then pure empty else node true true fuel
      let v ←
        if (← peek) == .value then do
          skip
          if endsPair (← peek) then pure empty else node true true fuel
        else pure empty
      return (k, v) :: (← blockPairs fuel)
    | _ => refuse

/-- Reads the items of a flow sequence. An item may be a single entry of a mapping; where its key is
explicit and empty, the token after the mark of the key is passed over. -/
def flowItems (first : Bool) : Nat → Parse (List Node)
  | 0 => refuse
  | fuel + 1 => do
    let close := Token.flowSequenceEnd
    if (← peek) == close then
      skip
      return []
    if !first then expect .flowEntry
    match ← peek with
    | .flowSequenceEnd => do skip; return []
    | .key =>
      skip
      let t ← peek
      let k ←
        if t == .value || endsFlow close t then do skip; pure empty else node false false fuel
      let v ← flowValue close fuel
      return mapping [(k, v)] :: (← flowItems false fuel)
    | _ =>
      let n ← node false false fuel
      return n :: (← flowItems false fuel)

/-- Reads the entries of a flow mapping. -/
def flowPairs (first : Bool) : Nat → Parse (List (Node × Node))
  | 0 => refuse
  | fuel + 1 => do
    let close := Token.flowMappingEnd
    if (← peek) == close then
      skip
      return []
    if !first then expect .flowEntry
    match ← peek with
    | .flowMappingEnd => do skip; return []
    | .key =>
      skip
      let t ← peek
      let k ← if t == .value || endsFlow close t then pure empty else node false false fuel
      let v ← flowValue close fuel
      return (k, v) :: (← flowPairs false fuel)
    | _ =>
      let k ← node false false fuel
      return (k, empty) :: (← flowPairs false fuel)

/-- Reads the value of an entry in a flow collection. -/
def flowValue (close : Token) : Nat → Parse Node
  | 0 => refuse
  | fuel + 1 => do
    if (← peek) == .value then
      skip
      if endsFlow close (← peek) then pure empty else node false false fuel
    else pure empty

end

end Node

end Console.Yaml
