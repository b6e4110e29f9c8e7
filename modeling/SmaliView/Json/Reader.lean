import SmaliView.Double
import SmaliView.Text.Digits
import SmaliView.Word

/-!
# Reading JSON

A reader goes through a text once, from left to right, and knows what it expects there. The first
fault counts: the text may end too early, break the rules of JSON, or hold a value that does not
fit. Fields that are not asked for are passed over; only their outer form is checked.
-/

namespace SmaliView.Json

/-- In which way a text is refused. -/
inductive ReadFault where
  /-- It ends too early. -/
  | ended
  /-- It is not JSON. -/
  | malformed
  /-- It is JSON of another kind than asked for. -/
  | unfit
deriving DecidableEq, Repr, Inhabited

/-- A reader: from the rest of the text to a value and a shorter rest. -/
abbrev Reader (α : Type) := StateT (List Char) (Except ReadFault) α

namespace Reader

/-! ## Characters -/

def isBlank (c : Char) : Bool := c == ' ' || c == '\n' || c == '\t' || c == '\r'

def peek : Reader (Option Char) := return (← get).head?

/-- The next character that is no blank. -/
def peekToken : Reader (Option Char) := do
  modify (·.dropWhile isBlank)
  peek

def skip : Reader Unit := modify List.tail

/-- Read a character; the text must not end here. -/
def next : Reader Char := do
  match ← get with
  | c :: rest =>
    set rest
    return c
  | [] => throw .ended

def accept (c : Char) : Reader Bool := do
  if (← peek) == some c then
    skip
    return true
  return false

/-- The rest of a word whose first letter was seen. -/
def word : List Char → Reader Unit
  | [] => return
  | c :: cs => do
    if (← next) != c then throw .malformed
    word cs

/-! ## Strings -/

/-- The number that four hexadecimal digits give. The text ends too early if it has fewer than four
bytes left. -/
def fourDigits : Reader Nat := do
  let rest ← get
  if ((rest.take 4).foldl (fun n c => n + c.utf8Size) 0) < 4 then throw .ended
  set (rest.drop 4)
  match Text.hexValue? (rest.take 4) with
  | some n => return n
  | none => throw .malformed

def isHigh (n : Nat) : Bool := 0xD800 ≤ n && n ≤ 0xDBFF

def isLow (n : Nat) : Bool := 0xDC00 ≤ n && n ≤ 0xDFFF

/-- The character that a code stands for, or that it begins. -/
def coded : Reader Char := do
  let n ← fourDigits
  if isLow n then throw .malformed
  if isHigh n then
    if (← next) != '\\' then throw .malformed
    if (← next) != 'u' then throw .malformed
    let m ← fourDigits
    unless isLow m do throw .malformed
    return Char.ofNat (0x10000 + (n - 0xD800) * 0x400 + (m - 0xDC00))
  return Char.ofNat n

def escape? : Char → Option Char
  | '"' => some '"'
  | '\\' => some '\\'
  | '/' => some '/'
  | 'b' => some '\x08'
  | 'f' => some '\x0c'
  | 'n' => some '\n'
  | 'r' => some '\r'
  | 't' => some '\t'
  | _ => none

/-- The rest of a string whose quote was seen. Half pairs are let through if it is not `strict`. -/
def stringFrom (strict : Bool) : Nat → List Char → Reader String
  | 0, _ => throw .ended
  | n + 1, acc => do
    let c ← next
    if c == '"' then return String.ofList acc.reverse
    else if c == '\\' then
      let e ← next
      match escape? e with
      | some d => stringFrom strict n (d :: acc)
      | none =>
        if e != 'u' then throw .malformed
        if strict then stringFrom strict n ((← coded) :: acc)
        else
          -- Nobody asks for the text, so a half pair does no harm, and no character is kept.
          let _ ← fourDigits
          stringFrom strict n acc
    else if c.toNat < 0x20 then throw .malformed
    else stringFrom strict n (c :: acc)

/-- A string from its quote on. -/
def quoted (strict : Bool) : Reader String := do
  skip
  stringFrom strict ((← get).length + 1) []

/-! ## Numbers -/

/-- A number: an integer of 64 bits, or another one. -/
inductive Number where
  | integer (n : Int)
  | other
deriving DecidableEq, Repr

def digits : Reader (List Char) := do
  let run := (← get).takeWhile Char.isDigit
  modify (·.drop run.length)
  return run

/-- The digits that have to come next. The end of the text counts as an end too early if `strict`.
-/
def someDigits (strict : Bool) : Reader (List Char) := do
  let ds ← digits
  if ds.isEmpty then
    if strict && (← peek).isNone then throw .ended
    throw .malformed
  return ds

/-- A number. It must not be too great for a floating-point number if `strict`. -/
def number (strict : Bool) : Reader Number := do
  let negative ← accept '-'
  let whole ← someDigits strict
  if whole.length > 1 && whole.head? == some '0' then throw .malformed
  let part ← if ← accept '.' then someDigits strict else pure []
  let (powered, e) ← if (← peek).any (· ∈ ['e', 'E']) then do
      skip
      let below ← accept '-'
      unless below do let _ ← accept '+'
      let ds ← someDigits strict
      -- Such an exponent decides alone; its value is not computed.
      let tooLong := 9 < (ds.dropWhile (· == '0')).length
      let n : Nat := if tooLong then Nat.pow 10 9 else Text.decimalValue ds
      pure (true, if below then -(n : Int) else (n : Int))
    else pure (false, 0)
  let magnitude := Text.decimalValue (whole ++ part)
  let exact : Int := if negative then -(magnitude : Int) else magnitude
  -- A negative zero is no integer.
  if part.isEmpty && !powered && -(wordSize 63 : Int) ≤ exact && exact < wordSize 64
      && !(negative && exact == 0) then
    return .integer exact
  let value := Double.ofDecimal negative magnitude (e - part.length)
  if strict && !value.isFinite then throw .malformed
  return .other

/-! ## Values of any kind -/

/-- How deep values may lie inside each other that are looked at. -/
def depthLimit : Nat := 127

mutual

/-- Go past a value. -/
def pass (strict : Bool) : Nat → Nat → Reader Unit
  | 0, _ => throw .malformed
  | n + 1, depth => do
    match ← peekToken with
    | none => throw .ended
    | some 'n' =>
      skip
      word "ull".toList
    | some 't' =>
      skip
      word "rue".toList
    | some 'f' =>
      skip
      word "alse".toList
    | some '"' => let _ ← quoted strict
    | some '[' =>
      if strict && depth == 0 then throw .malformed
      skip
      if (← peekToken) == some ']' then skip else passItems strict n (depth - 1)
    | some '\x7b' =>
      if strict && depth == 0 then throw .malformed
      skip
      if (← peekToken) == some '\x7d' then skip else passFields strict n (depth - 1)
    | some c =>
      if c == '-' || c.isDigit then let _ ← number strict else throw .malformed

def passItems (strict : Bool) : Nat → Nat → Reader Unit
  | 0, _ => throw .malformed
  | n + 1, depth => do
    pass strict n depth
    match ← peekToken with
    | some ',' =>
      skip
      passItems strict n depth
    | some ']' => skip
    | some _ => throw .malformed
    | none => throw .ended

def passFields (strict : Bool) : Nat → Nat → Reader Unit
  | 0, _ => throw .malformed
  | n + 1, depth => do
    match ← peekToken with
    | some '"' => let _ ← quoted strict
    | some _ => throw .malformed
    | none => throw .ended
    match ← peekToken with
    | some ':' => skip
    | some _ => throw .malformed
    | none => throw .ended
    pass strict n depth
    match ← peekToken with
    | some ',' =>
      skip
      passFields strict n depth
    | some '\x7d' => skip
    | some _ => throw .malformed
    | none => throw .ended

end

/-- The fuel for a value in the rest of the text. -/
def fuel : Reader Nat := return 2 * (← get).length + 2

/-- Go past a value that nobody asks for. -/
def ignore : Reader Unit := do pass false (← fuel) 0

/-- Go past a value that is looked at later. -/
def examine (depth : Nat) : Reader Unit := do pass true (← fuel) depth

/-- Refuse a value of another kind. What is not even JSON is malformed. -/
def mistaken {α : Type} : Reader α := do
  match ← peekToken with
  | none => throw .ended
  -- The kind is wrong already at the bracket; what is inside is not looked at.
  | some '[' | some '\x7b' => throw .unfit
  | some _ =>
    examine 0
    throw .unfit

/-! ## Values of a given kind -/

def string : Reader String := do
  if (← peekToken) == some '"' then quoted true else mistaken

def natBelow (bound : Nat) : Reader Nat := do
  match ← peekToken with
  | none => throw .ended
  | some c =>
    if c == '-' || c.isDigit then
      match ← number true with
      | .integer n => if 0 ≤ n && n < bound then return n.toNat else throw .unfit
      | .other => throw .unfit
    else mistaken

def bool : Reader Bool := do
  match ← peekToken with
  | some 't' =>
    skip
    word "rue".toList
    return true
  | some 'f' =>
    skip
    word "alse".toList
    return false
  | _ => mistaken

def null : Reader Unit := do
  if (← peekToken) == some 'n' then
    skip
    word "ull".toList
  else mistaken

/-- A value, or null for none. -/
def orNull {α : Type} (read : Reader α) : Reader (Option α) := do
  if (← peekToken) == some 'n' then
    null
    return none
  some <$> read

/-- One of some words: the word itself, or an object whose only field has it as its name and holds
null. -/
def oneOf {α : Type} (choices : List (String × α)) : Reader α := do
  let choose : Reader α := do
    match choices.lookup (← string) with
    | some a => return a
    | none => throw .unfit
  match ← peekToken with
  | none => throw .ended
  | some '"' => choose
  | some '\x7b' =>
    skip
    let a ← choose
    match ← peekToken with
    | some ':' => skip
    | some _ => throw .malformed
    | none => throw .ended
    null
    match ← peekToken with
    | some '\x7d' =>
      skip
      return a
    | some _ => throw .malformed
    | none => throw .ended
  | some _ => throw .malformed

/-! ## Arrays -/

/-- Whether an array goes on; the reader stands at an item then. -/
def moreItems (first : Bool) : Reader Bool := do
  match ← peekToken with
  | some ']' => return false
  | some c =>
    if first then return true
    unless c == ',' do throw .malformed
    skip
    match ← peekToken with
    | some ']' => throw .malformed
    | some _ => return true
    | none => throw .ended
  | none => throw .ended

def endItems : Reader Unit := do
  match ← peekToken with
  | some ']' => skip
  | some _ => throw .malformed
  | none => throw .ended

/-- All items of an array that are left. -/
def itemsFrom {α : Type} (read : Reader α) : Nat → Bool → Reader (List α)
  | 0, _ => throw .malformed
  | n + 1, first => do
    if ← moreItems first then
      let a ← read
      return a :: (← itemsFrom read n false)
    return []

def array {α : Type} (read : Reader α) : Reader (List α) := do
  match ← peekToken with
  | some '[' =>
    skip
    let as ← itemsFrom read ((← get).length + 1) true
    endItems
    return as
  | _ => mistaken

def tuple {α : Type} (size : Nat) (read : Reader α) : Reader (List α) := do
  match ← peekToken with
  | some '[' =>
    skip
    let as ← (List.range size).mapM fun i => do
      if ← moreItems (i == 0) then read else throw .unfit
    endItems
    return as
  | _ => mistaken

/-! ## Objects -/

/-- One member of a group of values: its key and how its value changes the group. -/
structure Member (ρ : Type) where
  key : String
  update : ρ → Reader ρ
  /-- Whether an object has to have it. -/
  required : Bool := true
  /-- Whether an array has to have it. -/
  requiredItem : Bool := true

/-- Whether an object goes on; the reader stands at a key then. -/
def moreFields (first : Bool) : Reader Bool := do
  match ← peekToken with
  | some '\x7d' => return false
  | some c =>
    unless first do
      unless c == ',' do throw .malformed
      skip
    match ← peekToken with
    | some '"' => return true
    | some _ => throw .malformed
    | none => throw .ended
  | none => throw .ended

def colon : Reader Unit := do
  match ← peekToken with
  | some ':' => skip
  | some _ => throw .malformed
  | none => throw .ended

/-- Read the fields of an object in any order. No known one may come twice. -/
def fieldsFrom {ρ : Type} (known : List (Member ρ)) (closed : Bool) :
    Nat → Bool → List String → ρ → Reader ρ
  | 0, _, _, _ => throw .malformed
  | n + 1, first, seen, r => do
    if ← moreFields first then
      let key ← string
      match known.find? (·.key == key) with
      | some field =>
        -- Only fields that are read count as coming twice.
        if key ∈ seen then throw .unfit
        colon
        let r ← field.update r
        fieldsFrom known closed n false (key :: seen) r
      | none =>
        if closed then throw .unfit
        colon
        ignore
        fieldsFrom known closed n false seen r
    else if known.all fun f => !f.required || f.key ∈ seen then return r
    else throw .unfit

/-- Read the items of an array as fields, in the order in which they are declared. -/
def fieldItems {ρ : Type} : Bool → List (Member ρ) → ρ → Reader ρ
  | _, [], r => return r
  | first, field :: known, r => do
    if ← moreItems first then
      let r ← field.update r
      fieldItems false known r
    -- An array that ends early leaves out the last fields.
    else if field.requiredItem then throw .unfit
    else fieldItems first known r

/-- A group of values: an object, or an array with the values in the order of the fields. An
object that is `closed` has no other fields. -/
def group {ρ : Type} (known : List (Member ρ)) (start : ρ) (closed : Bool := false) : Reader ρ := do
  match ← peekToken with
  | some '\x7b' =>
    skip
    let r ← fieldsFrom known closed ((← get).length + 1) true [] start
    skip
    return r
  | some '[' =>
    skip
    let r ← fieldItems true known start
    endItems
    return r
  | _ => mistaken

/-! ## Whole texts -/

def run {α : Type} (read : Reader α) (text : String) : Except ReadFault α := do
  let (a, rest) ← StateT.run read text.toList
  if rest.all isBlank then return a else throw .malformed

end Reader

end SmaliView.Json
