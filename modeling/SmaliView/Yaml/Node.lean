import SmaliView.Yaml.Scan

/-!
# The tree of a YAML document

Tokens are read as one tree of nodes. An alias stands for the node that was anchored last under its
name; that node has to be complete, so no node contains itself.

Every function runs on fuel. All recursion goes along the tokens, so a few steps for every token
suffice.
-/

namespace SmaliView.Yaml

/-- A node of a document, with the tag that it carries. -/
inductive Node where
  | scalar (tag : Option String) (style : Style) (text : String)
  | sequence (tag : Option String) (items : List Node)
  | mapping (tag : Option String) (fields : List (Node × Node))
  /-- The node that an alias stands for. -/
  | alias (target : Node)
deriving Repr, Inhabited

/-- Where the parser stands. -/
structure Parser where
  rest : List Token
  /-- The names of anchors, the last one first. -/
  anchors : List String := []
  /-- The anchored nodes that are complete, by the number of anchors before them. -/
  targets : List (Nat × Node) := []
  /-- The prefixes that the handles of tags stand for. -/
  prefixes : List (String × String) := []
deriving Inhabited

/-- An action of the parser; nothing for tokens that make no document. -/
abbrev Parse (α : Type) := StateT Parser Option α

namespace Parse

/-! ## Tokens -/

def peek : Parse (Option Token) := return (← get).rest.head?

def skip : Parse Unit := modify fun s => { s with rest := s.rest.tail }

def sees (ts : List Token) : Parse Bool := return (← peek).any (· ∈ ts)

def accept (t : Token) : Parse Bool := do
  if ← sees [t] then
    skip
    return true
  return false

/-! ## Properties of nodes -/

/-- The whole tag that a written one stands for. -/
def expand (t : WrittenTag) : Parse String := do
  if t.handle.isEmpty then return t.suffix
  match (← get).prefixes.lookup t.handle with
  | some start => return start ++ t.suffix
  | none => failure

def anchor : Parse (Option String) := do
  match ← peek with
  | some (.anchor name) =>
    skip
    return some name
  | _ => return none

def tag : Parse (Option WrittenTag) := do
  match ← peek with
  | some (.tag t) =>
    skip
    return some t
  | _ => return none

/-- The anchor and the tag in front of a node, in either order. -/
def properties : Parse (Option String × Option String) := do
  let early ← tag
  let name ← anchor
  let written ← match early with
    | some t => pure (some t)
    | none => tag
  return (name, ← written.mapM expand)

def target (name : String) : Parse Node := do
  let s ← get
  match s.anchors.idxOf? name with
  | none => failure
  | some i =>
    -- A node that is not complete has no entry yet.
    match s.targets.lookup (s.anchors.length - 1 - i) with
    | some node => return node
    | none => failure

def empty : Node := .scalar none .plain ""

/-! ## Nodes -/

mutual

/-- A node. Block collections are allowed in front of it if `block`, and a sequence whose dashes
stand no deeper than the key before it if `dashes`. -/
def node : Nat → Bool → Bool → Parse Node
  | 0, _, _ => failure
  | n + 1, block, dashes => do
    match ← peek with
    | some (.alias name) =>
      skip
      return .alias (← target name)
    | _ =>
      let (name, tag) ← properties
      -- The number is that of this anchor, whatever is anchored inside of the node.
      let number := (← get).anchors.length
      if let some name := name then
        modify fun s => { s with anchors := name :: s.anchors }
      let result ← content n block dashes tag (name.isSome || tag.isSome)
      if name.isSome then
        modify fun s => { s with targets := (number, result) :: s.targets }
      return result

/-- What stands after the properties of a node. Nothing needs to if there are some. -/
def content : Nat → Bool → Bool → Option String → Bool → Parse Node
  | 0, _, _, _, _ => failure
  | n + 1, block, dashes, tag, marked => do
    match ← peek with
    | some (.scalar style text) =>
      skip
      return .scalar (tag.filter (· != "!")) style text
    | some .flowSequence =>
      skip
      return .sequence tag (← flowItems n true)
    | some .flowMapping =>
      skip
      return .mapping tag (← flowFields n true)
    | next =>
      if dashes && next == some .blockEntry then
        return .sequence tag (← dashedItems n)
      else if block && next == some .blockSequence then
        skip
        return .sequence tag (← blockItems n)
      else if block && next == some .blockMapping then
        skip
        return .mapping tag (← blockFields n)
      else
        -- A tag or an anchor alone makes an empty node.
        guard marked
        return .scalar tag .plain ""

/-- A node, or an empty one if one of the given tokens comes next. -/
def nodeUnless : Nat → Bool → Bool → List Token → Parse Node
  | 0, _, _, _ => failure
  | n + 1, block, dashes, ends => do
    if ← sees ends then return empty
    node n block dashes

/-- The items of a sequence without a level of its own. -/
def dashedItems : Nat → Parse (List Node)
  | 0 => failure
  | n + 1 => do
    if ← accept .blockEntry then
      let item ← nodeUnless n true false [.blockEntry, .key, .value, .blockEnd]
      return item :: (← dashedItems n)
    return []

def blockItems : Nat → Parse (List Node)
  | 0 => failure
  | n + 1 => do
    if ← accept .blockEntry then
      let item ← nodeUnless n true false [.blockEntry, .blockEnd]
      return item :: (← blockItems n)
    guard (← accept .blockEnd)
    return []

def blockFields : Nat → Parse (List (Node × Node))
  | 0 => failure
  | n + 1 => do
    if ← accept .key then
      let key ← nodeUnless n true true [.key, .value, .blockEnd]
      let value ← if ← accept .value then nodeUnless n true true [.key, .value, .blockEnd]
        else pure empty
      return (key, value) :: (← blockFields n)
    guard (← accept .blockEnd)
    return []

/-- The items of a flow sequence. An item with a colon is a mapping of one field. -/
def flowItems : Nat → Bool → Parse (List Node)
  | 0, _ => failure
  | n + 1, first => do
    if ← accept .flowSequenceEnd then return []
    unless first do guard (← accept .flowEntry)
    if ← accept .key then
      let item ← flowPair n
      return item :: (← flowItems n false)
    if ← accept .flowSequenceEnd then return []
    let item ← node n false false
    return item :: (← flowItems n false)

/-- A mapping of one field in a flow sequence. A token that stands where its key should be is passed
over. -/
def flowPair : Nat → Parse Node
  | 0 => failure
  | n + 1 => do
    let key ← if ← sees [.value, .flowEntry, .flowSequenceEnd] then do
        skip
        pure empty
      else node n false false
    let value ← if ← accept .value then nodeUnless n false false [.flowEntry, .flowSequenceEnd]
      else pure empty
    return .mapping none [(key, value)]

/-- The fields of a flow mapping. A field without a colon has an empty value. -/
def flowFields : Nat → Bool → Parse (List (Node × Node))
  | 0, _ => failure
  | n + 1, first => do
    if ← accept .flowMappingEnd then return []
    unless first do guard (← accept .flowEntry)
    if ← accept .key then
      let key ← nodeUnless n false false [.value, .flowEntry, .flowMappingEnd]
      let value ← if ← accept .value then nodeUnless n false false [.flowEntry, .flowMappingEnd]
        else pure empty
      return (key, value) :: (← flowFields n false)
    if ← accept .flowMappingEnd then return []
    let key ← node n false false
    return (key, empty) :: (← flowFields n false)

end

/-! ## Documents -/

/-- The directives in front of a document: whether there is one, and the prefixes they give. -/
def directives : List Token → Bool → List (String × String) →
    Option (List Token × Bool × List (String × String))
  | .version major minor :: rest, false, prefixes => do
    guard (major = 1 ∧ (minor = 1 ∨ minor = 2))
    directives rest true prefixes
  | .version _ _ :: _, true, _ => none
  | .tagPrefix handle start :: rest, versioned, prefixes => do
    guard (prefixes.lookup handle).isNone
    directives rest versioned ((handle, start) :: prefixes)
  | rest, versioned, prefixes => some (rest, versioned || !prefixes.isEmpty, prefixes)

/-- The prefixes of handles that no directive changes. -/
def usualPrefixes : List (String × String) :=
  [("!", "!"), ("!!", "tag:yaml.org,2002:")]

/-- The root of the only document, if there is one. -/
def document : Parse (Option Node) := do
  let fuel := 4 * (← get).rest.length + 4
  let some (rest, directed, prefixes) := directives (← get).rest false [] | failure
  if rest.isEmpty && !directed then return none
  modify fun s => { s with rest, prefixes := prefixes ++ usualPrefixes }
  let explicit ← accept .documentStart
  -- Directives have to be ended by a mark.
  guard (explicit || !directed)
  let bare ← sees [.documentStart, .documentEnd]
  let next ← peek
  let root ← if explicit && (bare || next.isNone) then pure empty else node fuel true false
  modify fun s => { s with rest := s.rest.dropWhile (· == .documentEnd) }
  guard (← peek).isNone
  return some root

end Parse

/-- The root of the document that a text holds. The outer option is nothing for a malformed text,
the inner one for a text without a document. -/
def parse (text : List Char) : Option (Option Node) := do
  let tokens ← tokens? text
  let (root, _) ← Parse.document.run { rest := tokens }
  return root

end SmaliView.Yaml
