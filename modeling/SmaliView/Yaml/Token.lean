/-!
# The tokens of YAML

A text is cut into tokens before it is read as a tree. Indentation becomes tokens of its own: a
block collection starts with one and ends with `blockEnd`.
-/

namespace SmaliView.Yaml

/-- How a scalar is written. -/
inductive Style where
  | plain
  | quoted
  /-- Indented lines below an indicator. -/
  | block
deriving DecidableEq, Repr, Inhabited

/-- A tag as it is written: a handle that stands for a prefix, and what follows it. -/
structure WrittenTag where
  handle : String
  suffix : String
deriving DecidableEq, Repr, Inhabited

/-- A token of YAML. -/
inductive Token where
  | version (major minor : Nat)
  | tagPrefix (handle pre : String)
  | documentStart
  | documentEnd
  | blockSequence
  | blockMapping
  | blockEnd
  | flowSequence
  | flowSequenceEnd
  | flowMapping
  | flowMappingEnd
  /-- A comma in a flow collection. -/
  | flowEntry
  /-- A dash in a block sequence. -/
  | blockEntry
  | key
  | value
  | anchor (name : String)
  | alias (name : String)
  | tag (t : WrittenTag)
  | scalar (style : Style) (text : String)
deriving DecidableEq, Repr, Inhabited

end SmaliView.Yaml
