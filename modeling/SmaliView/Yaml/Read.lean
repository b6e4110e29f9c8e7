import SmaliView.Document
import SmaliView.Yaml.Node
import SmaliView.Word

/-!
# YAML as settings documents

`Yaml.read` reads a text as a dictionary. What a plain scalar says depends on how it looks: null,
a truth value, an integer, a number with a fraction, or else text. A standard tag decides it
instead; tags of other kinds are refused.
-/

namespace SmaliView.Yaml

/-! ## Scalars -/

def isNull (s : String) : Bool := s ∈ ["null", "Null", "NULL", "~"]

def bool? (s : String) : Option Bool :=
  if s ∈ ["true", "True", "TRUE"] then some true
  else if s ∈ ["false", "False", "FALSE"] then some false
  else none

def digit? (base : Nat) (c : Char) : Option Nat := do
  let v ← Text.hexDigit? c
  guard (v < base)
  return v

/-- A natural number in some base, with at least one digit. -/
def digits? (base : Nat) (ds : List Char) : Option Nat := do
  guard !ds.isEmpty
  return (← ds.mapM (digit? base)).foldl (fun n v => n * base + v) 0

/-- A zero and further digits: not a number. -/
def isPadded (s : List Char) : Bool :=
  match (Double.splitSign s).2 with
  | '0' :: c :: rest => (c :: rest).all Char.isDigit
  | _ => false

/-- The base that a prefix asks for. -/
def basePrefix? : List Char → Option (Nat × List Char)
  | '0' :: 'x' :: rest => some (16, rest)
  | '0' :: 'o' :: rest => some (8, rest)
  | '0' :: 'b' :: rest => some (2, rest)
  | _ => none

/-- An integer as written after its sign. -/
def magnitude? (signed body : List Char) : Option Nat :=
  match basePrefix? body with
  | some (base, ds) => digits? base ds
  | none => if isPadded signed then none else digits? 10 body

/-- The integer that a text is. It has at most 128 bits. -/
def int? (s : List Char) : Option Int :=
  match s with
  | '-' :: body => do
    let n ← magnitude? s body
    guard (n ≤ wordSize 127)
    return -(n : Int)
  | _ => do
    let n ← magnitude? s (Double.splitSign s).2
    guard (n < wordSize 128)
    return n

/-- The number with a fraction that a text is. -/
def double? (s : List Char) : Option Double :=
  let body := if s.head? == some '+' then s.tail else s
  if s.head? == some '+' && body.head?.any (· ∈ ['+', '-']) then none
  else if String.ofList body ∈ [".inf", ".Inf", ".INF"] then some (.infinite false)
  else if String.ofList s ∈ ["-.inf", "-.Inf", "-.INF"] then some (.infinite true)
  else if String.ofList s ∈ [".nan", ".NaN", ".NAN"] then some .nan
  else (Double.ofText? body).filter Double.isFinite

/-- What a plain scalar without a tag says. -/
def plain (s : String) : Document :=
  if s.isEmpty || isNull s then .null
  else match bool? s with
    | some b => .bool b
    | none => match int? s.toList with
      | some n => .int n
      | none =>
        -- What is padded is a text, although a reader of fractions would take it.
        if isPadded s.toList then .text s
        else match double? s.toList with
          | some x => .float x
          | none => .text s

def standard (name : String) : String := "tag:yaml.org,2002:" ++ name

/-- Whether a tag is one of the document's own. -/
def isLocal (tag : String) : Bool := tag.toList.head? == some '!'

/-- What a scalar with a tag says. -/
def tagged (tag s : String) : Option Document :=
  if isLocal tag then none
  else if tag = standard "bool" then .bool <$> bool? s
  else if tag = standard "int" then .int <$> int? s.toList
  else if tag = standard "float" then .float <$> double? s.toList
  else if tag = standard "null" then if isNull s then some .null else none
  -- A tag of another kind leaves the text as it is.
  else some (.text s)

/-! ## Trees -/

/-- How many collections may lie inside each other. -/
def depthLimit : Nat := 128

mutual

/-- The number of steps in which a tree is walked through, not counting what aliases stand for. -/
def Node.size : Node → Nat
  | .scalar .. => 1
  | .sequence _ items => 2 + sizeOfItems items
  | .mapping _ fields => 2 + sizeOfFields fields
  | .alias _ => 1

def sizeOfItems : List Node → Nat
  | [] => 0
  | item :: rest => item.size + sizeOfItems rest

def sizeOfFields : List (Node × Node) → Nat
  | [] => 0
  | (key, value) :: rest => key.size + value.size + sizeOfFields rest

end

/-- A conversion that follows a limited number of aliases; nothing for a tree that is refused. -/
abbrev Convert (α : Type) := StateT Nat Option α

def follow : Convert Unit := do
  match ← get with
  | 0 => failure
  | n + 1 => set n

/-- The text of a key: only scalars can be keys. -/
def keyText : Node → Convert String
  | .scalar _ _ text => return text
  | .alias (.scalar _ _ text) => do
    follow
    return text
  | _ => failure

mutual

/-- The document that a tree of at most the given depth is. -/
def convert (depth : Nat) : Node → Convert Document
  | .scalar none .plain text => return plain text
  | .scalar none _ text => return .text text
  | .scalar (some tag) _ text => tagged tag text
  | .sequence tag items => do
    guard (!tag.any isLocal ∧ 0 < depth)
    return .list (← convertItems (depth - 1) items)
  | .mapping tag fields => do
    guard (!tag.any isLocal ∧ 0 < depth)
    return .ofFields (← convertFields (depth - 1) fields)
  | .alias target => do
    follow
    convert depth target

def convertItems (depth : Nat) : List Node → Convert (List Document)
  | [] => return []
  | item :: rest => do
    let d ← convert depth item
    return d :: (← convertItems depth rest)

def convertFields (depth : Nat) : List (Node × Node) → Convert Document.Fields
  | [] => return []
  | (key, value) :: rest => do
    let k ← keyText key
    let d ← convert depth value
    return (k, d) :: (← convertFields depth rest)

end

/-- The dictionary that the root of a document is. The root's own tag says nothing. -/
def convertRoot : Node → Option Document
  | .mapping _ fields => do
    -- A hundred aliases are followed for every step through the tree as it is written.
    let budget := 100 * (Node.mapping none fields).size
    let (fields, _) ← (convertFields (depthLimit - 1) fields).run budget
    return .ofFields fields
  | .scalar _ .plain "" => some (.dict [])
  | _ => none

/-- The dictionary that a text holds; the empty one for a text without a document, and nothing for a
malformed text or another kind of value. -/
def read (text : List Char) : Option Document := do
  match ← parse text with
  | none => return .dict []
  | some root => convertRoot root

end SmaliView.Yaml
