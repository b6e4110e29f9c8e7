import SmaliView.Text.Digits

/-!
# JSON values and their text

The values that reports are printed from. Numbers are integers: nothing that is printed has a
fraction. `render` writes a value over several lines, two blanks deeper at every level.
-/

namespace SmaliView

/-- A JSON value. The fields of an object stand in the order in which they are written. -/
inductive Json where
  | null
  | bool (b : Bool)
  | number (n : Int)
  | string (s : String)
  | array (items : List Json)
  | object (fields : List (String × Json))
deriving Repr, Inhabited

namespace Json

/-- An object with its fields in alphabetical order. -/
def record (fields : List (String × Json)) : Json :=
  .object (fields.mergeSort fun a b => !decide (b.1 < a.1))

def nat (n : Nat) : Json := .number n

/-- A value that may be missing. -/
def optional {α : Type} (f : α → Json) : Option α → Json
  | none => .null
  | some a => f a

def strings (items : List String) : Json :=
  .array (items.map .string)

def escape (c : Char) : List Char :=
  if c == '"' then ['\\', '"']
  else if c == '\\' then ['\\', '\\']
  else if c == '\n' then ['\\', 'n']
  else if c == '\r' then ['\\', 'r']
  else if c == '\t' then ['\\', 't']
  else if c == '\x08' then ['\\', 'b']
  else if c == '\x0c' then ['\\', 'f']
  else if c.toNat < 0x20 then
    ['\\', 'u', '0', '0', Text.hexDigit (c.toNat / 16), Text.hexDigit (c.toNat % 16)]
  else [c]

def quote (s : String) : String :=
  "\"" ++ String.ofList (s.toList.flatMap escape) ++ "\""

/-- The start of a line at some depth. -/
def indent (depth : Nat) : String :=
  "\n" ++ String.ofList (List.replicate (2 * depth) ' ')

mutual

/-- A value that starts at the given depth. -/
def renderAt (depth : Nat) : Json → String
  | .null => "null"
  | .bool b => if b then "true" else "false"
  | .number n => toString n
  | .string s => quote s
  -- Without items there is no line to break.
  | .array [] => "[]"
  | .array items => "[" ++ renderItems (depth + 1) true items ++ indent depth ++ "]"
  | .object [] => "\x7b\x7d"
  | .object fields => "\x7b" ++ renderFields (depth + 1) true fields ++ indent depth ++ "\x7d"

def renderItems (depth : Nat) (first : Bool) : List Json → String
  | [] => ""
  | v :: rest =>
    (if first then "" else ",") ++ indent depth ++ renderAt depth v ++ renderItems depth false rest

def renderFields (depth : Nat) (first : Bool) : List (String × Json) → String
  | [] => ""
  | (key, v) :: rest =>
    (if first then "" else ",") ++ indent depth ++ quote key ++ ": " ++ renderAt depth v
      ++ renderFields depth false rest

end

def render (v : Json) : String :=
  renderAt 0 v

end Json

end SmaliView
