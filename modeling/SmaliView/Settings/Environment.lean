import SmaliView.Document
import SmaliView.Text.Blank
import SmaliView.Text.Digits
import SmaliView.Text.Pieces
import SmaliView.Word

/-!
# Settings from the environment

Every variable whose name starts with a prefix sets one value. Two underscores in the rest of its
name lead one level down. Values are written in a small language of their own: truth values,
numbers, quoted texts, lists and dictionaries. A text that is not in this language stands for
itself.
-/

namespace SmaliView

namespace Environment

abbrev Variables := List (String × String)

/-! ## Values -/

/-- A reader: what was read and what is left; nothing if the text does not fit. -/
abbrev Read (α : Type) := StateT (List Char) Option α

/-- A character that may stand between the parts of a value. -/
def isGap (c : Char) : Bool := c == ' ' || c == '\t' || c == '\n'

def skipBlanks : Read Unit := modify (·.dropWhile isGap)

def expect (c : Char) : Read Unit := do
  guard ((← get).head? == some c)
  modify List.tail

/-- Go past a character if it comes next. -/
def accept (c : Char) : Read Bool := do
  if (← get).head? == some c then
    modify List.tail
    return true
  return false

/-- Read the longest run of a class of characters. -/
def takeWhile (p : Char → Bool) : Read (List Char) := do
  let run := (← get).takeWhile p
  modify (·.drop run.length)
  return run

/-- A character that ends a bare value. -/
def isSeparator (c : Char) : Bool := c ∈ [',', '[', ']', '\x7b', '\x7d']

/-- A character of a bare key. -/
def isKeyChar (c : Char) : Bool := c.isAlphanum || c == '_' || c == '-'

/-- The character with the code that some hexadecimal digits give. -/
def coded (digits : List Char) : Option Char := do
  let code ← Text.hexValue? digits
  guard (code.isValidChar)
  return Char.ofNat code

/-- The character that follows a backslash, if it stands for one character. -/
def escaped? : Char → Option Char
  | '"' => some '"'
  | '\\' => some '\\'
  | 'b' => some '\x08'
  | 'f' => some '\x0c'
  | 'n' => some '\n'
  | 'r' => some '\r'
  | 't' => some '\t'
  | _ => none

/-- A character that may stand in a quoted text as it is: any but a control character other than a
tab. -/
def isPlain (c : Char) : Bool := c == '\t' || (' ' ≤ c && c != '\x7f')

/-- A text up to its closing quote. -/
def quoted : Nat → List Char → Read String
  | 0, _ => failure
  | n + 1, acc => do
    match ← get with
    | '"' :: rest =>
      set rest
      return String.ofList acc.reverse
    | '\\' :: c :: rest =>
      let digits := if c == 'u' then 4 else if c == 'U' then 8 else 0
      if digits = 0 then
        set rest
        quoted n ((← escaped? c) :: acc)
      else
        guard (digits ≤ rest.length)
        set (rest.drop digits)
        quoted n ((← coded (rest.take digits)) :: acc)
    | c :: rest =>
      guard (isPlain c)
      set rest
      quoted n (c :: acc)
    | [] => failure

def quotedText : Read String := do
  expect '"'
  quoted ((← get).length + 1) []

def key : Read String := do
  if (← get).head? == some '"' then quotedText
  else
    let name ← takeWhile isKeyChar
    guard !name.isEmpty
    return String.ofList name

/-- The integer that a text is, of 64 bits with or without sign. -/
def int? (s : List Char) : Option Int := do
  let (negative, ds) := Double.splitSign s
  guard (!ds.isEmpty && ds.all Char.isDigit)
  let n := Text.decimalValue ds
  if negative then
    guard (n ≤ wordSize 63)
    return -(n : Int)
  else
    guard (n < wordSize 64)
    return n

/-- What a bare value says. Only a number with a point has a fraction. -/
def bare (s : List Char) : Document :=
  match if '.' ∈ s then Double.ofText? s else none with
  | some x => .float x
  | none =>
    match int? s with
    | some n => .int n
    | none => .text (String.ofList s)

/-- Go past a word if it comes next. -/
def acceptWord (word : String) : Read Bool := do
  if word.toList.isPrefixOf (← get) then
    modify (·.drop word.length)
    return true
  return false

mutual

/-- A value with the blanks around it. -/
def value : Nat → Read Document
  | 0 => failure
  | n + 1 => do
    skipBlanks
    let d ← core n
    skipBlanks
    return d

/-- A value without blanks around it. -/
def core : Nat → Read Document
  | 0 => failure
  | n + 1 => do
    if ← acceptWord "true" then return .bool true
    if ← acceptWord "false" then return .bool false
    match (← get).head? with
    | some '\x7b' =>
      expect '\x7b'
      return .ofFields (← fields n)
    | some '[' =>
      expect '['
      return .list (← items n)
    | some '"' => return .text (← quotedText)
    -- Between single quotes stands exactly one character.
    | some '\'' =>
      match ← get with
      | '\'' :: c :: '\'' :: rest =>
        set rest
        return .text (String.singleton c)
      | _ => failure
    | _ => return bare (Text.trim (← takeWhile fun c => !isSeparator c))

/-- The rest of a list. A comma may stand before its end. -/
def items : Nat → Read (List Document)
  | 0 => failure
  | n + 1 => do
    if ← accept ']' then return []
    let d ← value n
    if ← accept ',' then return d :: (← items n)
    expect ']'
    return [d]

/-- The rest of a dictionary. A comma may stand before its end. -/
def fields : Nat → Read Document.Fields
  | 0 => failure
  | n + 1 => do
    if ← accept '\x7d' then return []
    skipBlanks
    let k ← key
    skipBlanks
    expect '='
    skipBlanks
    let d ← value n
    if ← accept ',' then return (k, d) :: (← fields n)
    expect '\x7d'
    return [(k, d)]

end

def document (s : String) : Document :=
  let text := Text.trim s.toList
  match (value (3 * text.length + 3)).run text with
  | some (d, []) => d
  -- A text that is left over makes the whole variable a text.
  | _ => .text (String.ofList text)

/-! ## Names -/

/-- A text with every pair of underscores turned into a dot, from the left. -/
def dotted : List Char → List Char
  | '_' :: '_' :: rest => '.' :: dotted rest
  | c :: rest => c :: dotted rest
  | [] => []

/-- The keys that a variable's name leads to; none for a variable without the prefix, and none where
a key is empty. Neither case nor blanks around the name matter. -/
def keys? (start name : String) : Option (List String) := do
  let lower := (Text.trim name.toList).map Char.toLower
  let head := start.toList.map Char.toLower
  guard (head.isPrefixOf lower)
  -- A name may hold dots itself; they lead down as well.
  let keys := Text.cut '.' (Text.trim (dotted (lower.drop head.length)))
  guard (keys.all (!·.isEmpty))
  return keys.map String.ofList

/-- All settings of the variables with a prefix, later ones over earlier ones. -/
def settings (start : String) (vars : Variables) : Document :=
  vars.foldl (fun d (name, v) =>
    match keys? start name with
    | some keys => d.merge (Document.nest keys (document v))
    | none => d) (.dict [])

end Environment

end SmaliView
