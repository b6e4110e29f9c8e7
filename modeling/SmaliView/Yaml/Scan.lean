import SmaliView.Text.Digits
import SmaliView.Yaml.Token

/-!
# Cutting YAML into tokens

The scanner keeps the place in the text, the columns of the open block collections, and for every
level of flow collections the place where a *simple key* may have started. A simple key is a node
that turns out to be a key when a colon follows it on the same line; the token that says so is
then put in front of it.

Every loop runs on fuel that the length of the rest bounds.
-/

namespace SmaliView.Yaml

/-- A node that may turn out to be a key. -/
structure SimpleKey where
  /-- Whether nothing else can stand here. -/
  required : Bool
  /-- How many tokens were there before it. -/
  tokens : Nat
  index : Nat
  line : Nat
  column : Nat
deriving DecidableEq, Repr, Inhabited

/-- Where the scanner stands. -/
structure Scanner where
  rest : List Char
  index : Nat := 0
  line : Nat := 0
  column : Nat := 0
  /-- The column of the innermost block collection; −1 outside of all. -/
  indent : Int := -1
  /-- The columns of the collections around it. -/
  indents : List Int := []
  /-- Whether a simple key may start here. -/
  keyAllowed : Bool := true
  /-- The possible key of every flow level, the innermost first. -/
  keys : List (Option SimpleKey) := [none]
  /-- The tokens so far. -/
  tokens : Array Token := #[]
deriving Repr, Inhabited

/-- An action of the scanner; nothing for a text that is malformed. -/
abbrev Scan (α : Type) := StateT Scanner Option α

namespace Scan

/-! ## Characters -/

def isBreak (c : Char) : Bool :=
  c == '\n' || c == '\r' || c == '\u0085' || c == '\u2028' || c == '\u2029'

def isBlank (c : Char) : Bool := c == ' ' || c == '\t'

/-- A character of names. -/
def isWord (c : Char) : Bool := c.isAlphanum || c == '_' || c == '-'

/-- A blank, a line break or the end of the text. -/
def endsPlain (c : Option Char) : Bool := c.all fun c => isBlank c || isBreak c

/-- A line break or the end of the text. -/
def endsLine (c : Option Char) : Bool := c.all isBreak

/-- The characters that a text may hold. -/
def isPrintable (c : Char) : Bool :=
  let n := c.toNat
  n == 0x09 || n == 0x0A || n == 0x0D || (0x20 ≤ n && n ≤ 0x7E) || n == 0x85
    || (0xA0 ≤ n && n ≤ 0xFFFD) || 0x10000 ≤ n

def peek (n : Nat) : Scan (Option Char) := return (← get).rest[n]?

def sees (c : Char) : Scan Bool := return (← peek 0) == some c

/-- The fuel for a loop that goes through the rest. -/
def fuel : Scan Nat := return (← get).rest.length + 2

def skip : Scan Unit := modify fun s =>
  { s with rest := s.rest.tail, index := s.index + 1, column := s.column + 1 }

/-- Go past one line break; the break as the text has it afterwards. -/
def skipBreak : Scan String := do
  match (← get).rest with
  | '\r' :: '\n' :: rest =>
    modify fun s => { s with rest, index := s.index + 2, column := 0, line := s.line + 1 }
    return "\n"
  | c :: rest =>
    modify fun s => { s with rest, index := s.index + 1, column := 0, line := s.line + 1 }
    return if c == '\u2028' || c == '\u2029' then String.singleton c else "\n"
  | [] => return ""

/-- Go past all characters of a class. -/
def skipWhile (p : Char → Bool) : Scan (List Char) := do
  let run := (← get).rest.takeWhile p
  modify fun s => { s with
    rest := s.rest.drop run.length, index := s.index + run.length, column := s.column + run.length }
  return run

/-! ## Tokens, indentation and simple keys -/

/-- Whether the scanner is inside a flow collection. -/
def inFlow : Scan Bool := return (← get).keys.length > 1

def emit (t : Token) : Scan Unit := modify fun s => { s with tokens := s.tokens.push t }

def insertAt (n : Nat) (t : Token) : Scan Unit := modify fun s =>
  { s with tokens := (s.tokens.extract 0 n).push t ++ s.tokens.extract n s.tokens.size }

/-- Open a block collection at a column, unless one is open there. -/
def roll (column : Nat) (t : Token) (place : Option Nat) : Scan Unit := do
  unless ← inFlow do
    if (← get).indent < column then
      modify fun s => { s with indents := s.indent :: s.indents, indent := column }
      -- A mapping opens in front of its first key, which has been read by now.
      match place with
      | some n => insertAt n t
      | none => emit t

def unrollLoop : Nat → Int → Scan Unit
  | 0, _ => return
  | n + 1, column => do
    let s ← get
    if s.indent > column then
      emit .blockEnd
      modify fun s => { s with indent := s.indents.headD (-1), indents := s.indents.tail }
      unrollLoop n column

/-- Close the block collections beyond a column. -/
def unroll (column : Int) : Scan Unit := do
  unless ← inFlow do unrollLoop ((← get).indents.length + 1) column

/-- The possible key of the current level is none any more. It must not be required. -/
def dropKey : Scan Unit := do
  match (← get).keys with
  | some key :: rest =>
    guard !key.required
    modify fun s => { s with keys := none :: rest }
  | _ => return

def saveKey : Scan Unit := do
  let s ← get
  if s.keyAllowed then
    dropKey
    let key : SimpleKey := {
      -- In the column of an open block collection nothing but a key can stand.
      required := s.keys.length == 1 && s.indent == s.column
      tokens := s.tokens.size, index := s.index, line := s.line, column := s.column }
    modify fun s => { s with keys := some key :: s.keys.tail }

/-- The characters that a simple key may have. -/
def keyLimit : Nat := 1024

/-- Possible keys that started on an earlier line, or too far away, are none any more. -/
def staleKeys : Scan Unit := do
  let s ← get
  let keys ← s.keys.mapM fun key => match key with
    | some k =>
      if k.line < s.line || k.index + keyLimit < s.index then
        -- Here a colon was needed and did not come.
        if k.required then failure else pure none
      else pure (some k)
    | none => pure none
  modify fun s => { s with keys }

def allowKey (b : Bool) : Scan Unit := modify fun s => { s with keyAllowed := b }

/-! ## Between tokens -/

/-- Go past blanks, comments and line breaks. -/
def toNextToken : Nat → Scan Unit
  | 0 => return
  | n + 1 => do
    if (← get).index == 0 && (← sees '\uFEFF') then skip
    -- Where a key may start, a tab would be indentation.
    let tabs := (← inFlow) || !(← get).keyAllowed
    let _ ← skipWhile fun c => c == ' ' || (tabs && c == '\t')
    if ← sees '#' then
      let _ ← skipWhile fun c => !isBreak c
    if (← peek 0).any isBreak then
      let _ ← skipBreak
      unless ← inFlow do allowKey true
      toNextToken n

/-- Whether three characters that mark the bounds of documents stand at the start of this line. -/
def atMark (c : Char) : Scan Bool := do
  let s ← get
  return s.column == 0 && s.rest.take 3 == [c, c, c] && endsPlain s.rest[3]?

/-! ## Directives, anchors and tags -/

/-- A number of at most nine digits. -/
def number : Scan Nat := do
  let ds ← skipWhile Char.isDigit
  guard (0 < ds.length ∧ ds.length ≤ 9)
  return Text.decimalValue ds

def expect (c : Char) : Scan Unit := do
  guard (← sees c)
  skip

/-- A number of exactly so many hexadecimal digits. -/
def hexNumber (digits : Nat) : Scan Nat := do
  let ds := (← get).rest.take digits
  guard (ds.length = digits)
  let value ← Text.hexValue? ds
  for _ in ds do skip
  return value

/-- The characters of the address that a tag is. -/
def isAddress (inBrackets : Bool) (c : Char) : Bool :=
  isWord c || c ∈ ";/?:@&=+$.!~*'()".toList || (inBrackets && c ∈ ",[]".toList)

/-- A byte that starts a character of UTF-8, with the number of bytes after it. -/
def leadByte? (b : Nat) : Option (Nat × Nat) :=
  if b < 0x80 then some (b, 0)
  else if 0xC0 ≤ b && b < 0xE0 then some (b - 0xC0, 1)
  else if 0xE0 ≤ b && b < 0xF0 then some (b - 0xE0, 2)
  else if 0xF0 ≤ b && b < 0xF8 then some (b - 0xF0, 3)
  else none

/-- One byte as a percent sign and two digits. -/
def escapedByte : Scan Nat := do
  expect '%'
  hexNumber 2

/-- The bytes that continue a character. -/
def continuation : Nat → Nat → Scan Nat
  | 0, code => return code
  | n + 1, code => do
    let b ← escapedByte
    guard (0x80 ≤ b ∧ b < 0xC0)
    continuation n (code * 64 + (b - 0x80))

/-- The address that a tag is, from here on. -/
def address : Nat → Bool → List Char → Scan String
  | 0, _, acc => return String.ofList acc.reverse
  | n + 1, inBrackets, acc => do
    match ← peek 0 with
    | some '%' =>
      let b ← escapedByte
      match leadByte? b with
      | some (code, more) => address n inBrackets (Char.ofNat (← continuation more code) :: acc)
      | none => failure
    | some c =>
      if isAddress inBrackets c then
        skip
        address n inBrackets (c :: acc)
      else return String.ofList acc.reverse
    | none => return String.ofList acc.reverse

/-- The handle that a tag starts with. -/
def tagHandle : Scan String := do
  expect '!'
  let name ← skipWhile isWord
  if ← sees '!' then
    skip
    return "!" ++ String.ofList name ++ "!"
  return "!" ++ String.ofList name

/-- The rest of a line after a directive or an indicator: nothing but a comment. -/
def restOfLine : Scan Unit := do
  let _ ← skipWhile isBlank
  if ← sees '#' then
    let _ ← skipWhile fun c => !isBreak c
  guard (endsLine (← peek 0))
  let _ ← skipBreak

def directive : Scan Token := do
  skip
  let name := String.ofList (← skipWhile isWord)
  guard (endsPlain (← peek 0))
  let _ ← skipWhile isBlank
  let token ← match name with
    | "YAML" => do
      let major ← number
      expect '.'
      pure (Token.version major (← number))
    | "TAG" => do
      let handle ← tagHandle
      guard (handle = "!" ∨ (handle.length > 1 ∧ handle.toList.getLast? = some '!'))
      guard ((← peek 0).any isBlank)
      let _ ← skipWhile isBlank
      let pre ← address (← fuel) true []
      guard (!pre.isEmpty ∧ endsPlain (← peek 0))
      pure (.tagPrefix handle pre)
    | _ => failure
  restOfLine
  return token

def anchorName : Scan String := do
  skip
  let name ← skipWhile isWord
  guard !name.isEmpty
  let next ← peek 0
  guard (endsPlain next || next.any (· ∈ "?:,]\x7d%@`".toList))
  return String.ofList name

def tag : Scan WrittenTag := do
  let t ← if (← peek 1) == some '<' then do
      skip
      skip
      let suffix ← address (← fuel) true []
      guard !suffix.isEmpty
      expect '>'
      pure (WrittenTag.mk "" suffix)
    else do
      let handle ← tagHandle
      if handle.length > 1 && handle.toList.getLast? == some '!' then
        let suffix ← address (← fuel) false []
        guard !suffix.isEmpty
        pure ⟨handle, suffix⟩
      else
        let suffix ← address (← fuel) false (handle.toList.tail).reverse
        pure (if suffix.isEmpty then ⟨"", "!"⟩ else ⟨"!", suffix⟩)
  let next ← peek 0
  guard (endsPlain next || ((← inFlow) && next == some ','))
  return t

/-! ## Scalars -/

/-- The blanks and breaks between two words of a scalar. -/
structure Gap where
  blanks : List Char := []
  /-- The first line break. -/
  first : Option String := none
  /-- All further ones. -/
  more : String := ""
deriving Repr, Inhabited

/-- A gap as the text of the scalar has it: one line break is a blank, several are one fewer. -/
def Gap.text (g : Gap) : String :=
  match g.first with
  | none => String.ofList g.blanks
  | some b => if b == "\n" then (if g.more.isEmpty then " " else g.more) else b ++ g.more

/-- Read a gap. In a plain scalar a tab must not stand in the indentation. -/
def gap : Nat → Option Int → Gap → Scan Gap
  | 0, _, g => return g
  | n + 1, indent, g => do
    match ← peek 0 with
    | some c =>
      if isBlank c then
        let column : Int := (← get).column
        let inIndentation := indent.any fun i => decide (column < i)
        guard !(g.first.isSome && c == '\t' && inIndentation)
        skip
        -- Blanks before the first break are dropped, as those after it are.
        gap n indent (if g.first.isSome then g else { g with blanks := g.blanks ++ [c] })
      else if isBreak c then
        let b ← skipBreak
        gap n indent (match g.first with
          | none => { g with blanks := [], first := some b }
          | some _ => { g with more := g.more ++ b })
      else return g
    | none => return g

/-- Whether a character ends a word of a plain scalar. -/
def endsPlainWord (inFlow : Bool) (c : Char) (next : Option Char) : Bool :=
  (c == ':' && endsPlain next) || (inFlow && c ∈ ",[]\x7b\x7d".toList)

/-- One word of a plain scalar. -/
def plainWord : Nat → List Char → Scan (List Char)
  | 0, acc => return acc
  | n + 1, acc => do
    match ← peek 0 with
    | none => return acc
    | some c =>
      if isBlank c || isBreak c then return acc
      let next ← peek 1
      let flow ← inFlow
      guard !(flow && c == ':' && next.any (· ∈ ",?[]\x7b\x7d".toList))
      if endsPlainWord flow c next then return acc
      skip
      plainWord n (c :: acc)

/-- A plain scalar, read so far up to a gap. -/
def plainFrom : Nat → Int → String → Gap → Scan String
  | 0, _, acc, _ => return acc
  | n + 1, indent, acc, g => do
    if (← atMark '-') || (← atMark '.') || (← sees '#') then
      return acc
    -- A gap that no word follows is not part of the text.
    let word ← plainWord (← fuel) []
    if word.isEmpty then return acc
    let acc := acc ++ g.text ++ String.ofList word.reverse
    let next ← peek 0
    unless next.any fun c => isBlank c || isBreak c do
      allowKey false
      return acc
    let g ← gap (← fuel) (some indent) {}
    allowKey g.first.isSome
    if !(← inFlow) && ((← get).column : Int) < indent then return acc
    plainFrom n indent acc g

/-- A plain scalar. A simple key may follow it if it ended with its line. -/
def plain : Scan String := do
  plainFrom (← fuel) ((← get).indent + 1) "" {}

/-- The character that an escape stands for. -/
def escaped : Char → Option Char
  | '0' => some '\x00'
  | 'a' => some '\x07'
  | 'b' => some '\x08'
  | 't' | '\t' => some '\t'
  | 'n' => some '\n'
  | 'v' => some '\x0b'
  | 'f' => some '\x0c'
  | 'r' => some '\r'
  | 'e' => some '\x1b'
  | ' ' => some ' '
  | '"' => some '"'
  | '/' => some '/'
  | '\\' => some '\\'
  | 'N' => some '\u0085'
  | '_' => some '\u00A0'
  | 'L' => some '\u2028'
  | 'P' => some '\u2029'
  | _ => none

/-- The number of digits of an escape that gives a code. -/
def escapeDigits : Char → Option Nat
  | 'x' => some 2
  | 'u' => some 4
  | 'U' => some 8
  | _ => none

/-- One word of a quoted scalar; whether an escaped line break ended it. -/
def quotedWord : Nat → Bool → List Char → Scan (List Char × Bool)
  | 0, _, acc => return (acc, false)
  | n + 1, single, acc => do
    match ← peek 0 with
    | none => return (acc, false)
    | some c =>
      if isBlank c || isBreak c then return (acc, false)
      else if single then
        if c == '\'' then
          if (← peek 1) == some '\'' then
            skip
            skip
            quotedWord n single ('\'' :: acc)
          else return (acc, false)
        else
          skip
          quotedWord n single (c :: acc)
      else if c == '"' then return (acc, false)
      else if c == '\\' then
        match ← peek 1 with
        | none => failure
        | some d =>
          if isBreak d then
            skip
            let _ ← skipBreak
            return (acc, true)
          else
            match escapeDigits d with
            | some digits =>
              skip
              skip
              let code ← hexNumber digits
              guard !((0xD800 ≤ code && code ≤ 0xDFFF) || 0x10FFFF < code)
              quotedWord n single (Char.ofNat code :: acc)
            | none =>
              match escaped d with
              | some e =>
                skip
                skip
                quotedWord n single (e :: acc)
              | none => failure
      else
        skip
        quotedWord n single (c :: acc)

/-- A quoted scalar from after the opening quote on. -/
def quotedFrom : Nat → Bool → String → Scan String
  | 0, _, acc => return acc
  | n + 1, single, acc => do
    guard !((← atMark '-') || (← atMark '.'))
    guard (← peek 0).isSome
    let (word, broken) ← quotedWord (← fuel) single []
    let acc := acc ++ String.ofList word.reverse
    if ← sees (if single then '\'' else '"') then
      skip
      return acc
    -- An escaped break joins the lines without a blank.
    let g ← gap (← fuel) none (if broken then { first := some "" } else {})
    quotedFrom n single (acc ++ g.text)

def quoted (single : Bool) : Scan String := do
  skip
  quotedFrom (← fuel) single ""

/-- What happens to the line breaks at the end of a block scalar. -/
inductive Chomp where
  | strip
  | clip
  | keep
deriving DecidableEq, Repr

/-- Read blank lines and the indentation after them. The indentation is found out if it is 0. -/
def blockBreaks : Nat → Nat → Nat → String → Scan (Nat × String)
  | 0, indent, _, acc => return (indent, acc)
  | n + 1, indent, deepest, acc => do
    let s ← get
    let spaces := s.rest.takeWhile (· == ' ')
    let run := if indent == 0 then spaces.length else min spaces.length (indent - s.column)
    for _ in List.range run do skip
    let column := (← get).column
    let deepest := max deepest column
    guard !((indent == 0 || column < indent) && (← sees '\t'))
    if (← peek 0).any isBreak then
      let b ← skipBreak
      blockBreaks n indent deepest (acc ++ b)
    else if indent == 0 then
      -- The least indentation that the blank lines above and the outer level allow.
      return (max (max deepest ((← get).indent + 1).toNat) 1, acc)
    else return (indent, acc)

/-- The lines of a block scalar: the text so far, the last line break, the blank lines after it, and
whether the last line started with a blank. -/
def blockLines : Nat → Bool → Nat → String → String → String → Bool →
    Scan (String × String × String)
  | 0, _, _, acc, last, more, _ => return (acc, last, more)
  | n + 1, literal, indent, acc, last, more, wasBlank => do
    if (← get).column != indent || (← peek 0).isNone then
      return (acc, last, more)
    let startsBlank := (← peek 0).any isBlank
    -- A folded break is a blank, unless a line next to it starts with one.
    let joint :=
      if !literal && last == "\n" && !wasBlank && !startsBlank then
        (if more.isEmpty then " " else "")
      else last
    let line ← skipWhile fun c => !isBreak c
    let last' ← skipBreak
    let (_, more') ← blockBreaks (← fuel) indent 0 ""
    blockLines n literal indent (acc ++ joint ++ more ++ String.ofList line) last' more' startsBlank

/-- The indicators of a block scalar: chomping and indentation, in either order. -/
def blockHeader : Scan (Chomp × Nat) := do
  let sign : Scan (Option Chomp) := do
    if ← sees '+' then
      skip
      return some .keep
    if ← sees '-' then
      skip
      return some .strip
    return none
  let digit : Scan Nat := do
    match ← peek 0 with
    | some c =>
      if c.isDigit then
        guard (c != '0')
        skip
        return Text.digitValue c
      return 0
    | none => return 0
  match ← sign with
  | some chomp => return (chomp, ← digit)
  | none =>
    let n ← digit
    if n == 0 then return (.clip, 0)
    return ((← sign).getD .clip, n)

def block (literal : Bool) : Scan String := do
  skip
  let (chomp, increment) ← blockHeader
  restOfLine
  let base := (← get).indent
  let given := if increment == 0 then 0
    else if 0 ≤ base then base.toNat + increment else increment
  let (indent, more) ← blockBreaks (← fuel) given 0 ""
  let (text, last, more) ← blockLines (← fuel) literal indent "" "" more false
  return match chomp with
    | .strip => text
    | .clip => text ++ last
    | .keep => text ++ last ++ more

/-! ## All tokens -/

/-- A token of one character that opens a flow collection. -/
def openFlow (t : Token) : Scan Unit := do
  saveKey
  modify fun s => { s with keys := none :: s.keys }
  allowKey true
  skip
  emit t

/-- A token of one character that closes a flow collection. -/
def closeFlow (t : Token) : Scan Unit := do
  dropKey
  -- A bracket that closes nothing is left to the parser.
  if ← inFlow then modify fun s => { s with keys := s.keys.tail }
  allowKey false
  skip
  emit t

/-- An indicator that can only stand where a key could start, unless in a flow collection. -/
def indicator (t opening : Token) (keyInFlow : Bool) : Scan Unit := do
  let flow ← inFlow
  unless flow do
    -- `- - a` opens two sequences; after a scalar nothing opens on the same line.
    guard (← get).keyAllowed
    roll (← get).column opening none
  dropKey
  allowKey (keyInFlow || !flow)
  skip
  emit t

/-- The colon after a key. -/
def valueIndicator : Scan Unit := do
  match (← get).keys with
  | some key :: rest =>
    -- Only now it is known that what stands before the colon is a key.
    insertAt key.tokens .key
    roll key.column .blockMapping (some key.tokens)
    modify fun s => { s with keys := none :: rest }
    allowKey false
  | _ =>
    let flow ← inFlow
    unless flow do
      guard (← get).keyAllowed
      roll (← get).column .blockMapping none
    allowKey !flow
  skip
  emit .value

/-- A token that may be a simple key, or the start of one. -/
def keyable (t : Scan Token) : Scan Unit := do
  saveKey
  allowKey false
  emit (← t)

def mark (t : Token) : Scan Unit := do
  unroll (-1)
  dropKey
  allowKey false
  skip
  skip
  skip
  emit t

/-- Whether a plain scalar can start with a character. -/
def startsPlain (flow : Bool) (c : Char) (next : Option Char) : Bool :=
  !(c ∈ "-?:,[]\x7b\x7d#&*!|>'\"%@`".toList) || (c == '-' && !next.any isBlank)
    || (!flow && (c == '?' || c == ':') && !endsPlain next)

def token (c : Char) : Scan Unit := do
  let flow ← inFlow
  let next ← peek 1
  if (← get).column == 0 && c == '%' then
    unroll (-1)
    dropKey
    allowKey false
    emit (← directive)
  else if ← atMark '-' then mark .documentStart
  else if ← atMark '.' then mark .documentEnd
  else if c == '[' then openFlow .flowSequence
  else if c == '\x7b' then openFlow .flowMapping
  else if c == ']' then closeFlow .flowSequenceEnd
  else if c == '\x7d' then closeFlow .flowMappingEnd
  else if c == ',' then
    dropKey
    allowKey true
    skip
    emit .flowEntry
  else if c == '-' && endsPlain next then indicator .blockEntry .blockSequence true
  else if c == '?' && (flow || endsPlain next) then indicator .key .blockMapping false
  else if c == ':' && (flow || endsPlain next) then valueIndicator
  else if c == '*' then keyable (.alias <$> anchorName)
  else if c == '&' then keyable (.anchor <$> anchorName)
  else if c == '!' then keyable (.tag <$> tag)
  else if (c == '|' || c == '>') && !flow then
    dropKey
    allowKey true
    emit (.scalar .block (← block (c == '|')))
  else if c == '\'' || c == '"' then keyable (.scalar .quoted <$> quoted (c == '\''))
  else if startsPlain flow c next then
    saveKey
    allowKey false
    emit (.scalar .plain (← plain))
  else failure

/-- Read all tokens. -/
def all : Nat → Scan Unit
  | 0 => failure
  | n + 1 => do
    toNextToken (← fuel)
    staleKeys
    -- Indentation is known only here, at the first character of the next token.
    unroll (← get).column
    match ← peek 0 with
    | some c =>
      token c
      all n
    | none =>
      unroll (-1)
      dropKey

end Scan

/-- The tokens of a text; nothing for one that is malformed. -/
def tokens? (text : List Char) : Option (List Token) := do
  guard (text.all Scan.isPrintable)
  let (_, s) ← (Scan.all (text.length + 2)).run { rest := text }
  return s.tokens.toList

end SmaliView.Yaml
