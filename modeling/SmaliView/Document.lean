import SmaliView.Double

/-!
# Documents

A settings document is a dynamic value: what a settings file or an environment variable holds before
it is known which settings it is for. Dictionaries have their keys in alphabetical order, each once.
`merge` lays one document over another.
-/

namespace SmaliView

/-- A value read from a settings file or from the environment. -/
inductive Document where
  | null
  | bool (b : Bool)
  | int (n : Int)
  | float (x : Double)
  | text (s : String)
  | list (items : List Document)
  | dict (fields : List (String × Document))
deriving Repr, Inhabited

namespace Document

abbrev Fields := List (String × Document)

/-- The fields with one more, at its place in the order; one of the same name is replaced. -/
def insertField (key : String) (v : Document) : Fields → Fields
  | [] => [(key, v)]
  | (k, w) :: rest =>
    if key = k then (key, v) :: rest
    else if key < k then (key, v) :: (k, w) :: rest
    else (k, w) :: insertField key v rest

/-- A dictionary from fields in any order; the last of equal names counts. -/
def ofFields (fields : Fields) : Document :=
  .dict (fields.foldl (fun acc (k, v) => insertField k v acc) [])

def field? (fields : Fields) (key : String) : Option Document :=
  fields.lookup key

mutual

/-- `upper` laid over `lower`: dictionaries are merged field by field, anything else is
replaced. -/
def merge (lower : Document) : Document → Document
  | .dict upper =>
    match lower with
    | .dict fields => .dict (mergeFields fields upper)
    -- A dictionary does not merge with what is none: it replaces it.
    | _ => .dict upper
  | upper => upper

/-- The fields of `upper` laid over those of `lower`. -/
def mergeFields (lower : Fields) : Fields → Fields
  | [] => lower
  | (key, v) :: rest =>
    let merged := match field? lower key with
      | some w => merge w v
      | none => v
    mergeFields (insertField key merged lower) rest

end

/-- A value below a list of keys, as dictionaries inside each other. -/
def nest (keys : List String) (v : Document) : Document :=
  keys.foldr (fun key inner => .dict [(key, inner)]) v

end Document

end SmaliView
