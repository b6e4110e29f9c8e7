/-!
# The words of a shell script

A script is cut into words, operators and line ends. A word is a list of *parts*, literal text and
variables, each quoted or not: quotes decide later whether a part is split into fields.
-/

namespace SmaliView.Shell

inductive Part where
  | text (s : String) (quoted : Bool)
  | variable (name : String) (quoted : Bool)
deriving DecidableEq, Repr, Inhabited

/-- A word before its variables have values. -/
abbrev Word := List Part

inductive RedirectKind where
  | read
  | write
  | append
  /-- To where another stream leads. -/
  | duplicate
deriving DecidableEq, Repr, Inhabited

inductive Lexeme where
  | word (w : Word)
  | operator (s : String)
  /-- A redirection of a stream; the word after it says where to. -/
  | redirect (stream : Nat) (kind : RedirectKind)
  | newline
deriving DecidableEq, Repr, Inhabited

/-- Whether a character ends a word that is not quoted. -/
def endsWord (c : Char) : Bool :=
  c == ' ' || c == '\t' || c == '\n' || c == ';' || c == '&' || c == '|' || c == '(' || c == ')'
    || c == '<' || c == '>'

/-- Whether a character can stand in a variable's name. -/
def isNameChar (c : Char) : Bool :=
  c.isAlphanum || c == '_'

/-- Whether a character alone names a parameter. -/
def isSpecial (c : Char) : Bool :=
  c.isDigit || c == '#' || c == '@' || c == '*' || c == '?' || c == '$' || c == '!'

/-- The variable after a dollar sign, with the rest; nothing if there is none. -/
def variableAt (cs : List Char) : Option (String × List Char) :=
  match cs with
  | '{' :: rest =>
    let name := rest.takeWhile (· != '}')
    match rest.drop name.length with
    | '}' :: rest => some (String.ofList name, rest)
    | _ => none
  | c :: rest =>
    if isSpecial c then some (String.singleton c, rest)
    else
      let name := cs.takeWhile isNameChar
      if name.isEmpty then none else some (String.ofList name, cs.drop name.length)
  | [] => none

/-- How a word is quoted at some point. -/
inductive Quote where
  | bare
  | single
  | double
deriving DecidableEq, Repr

/-- Read a word with the given quotes open. The parts read so far are in reverse order. Nothing, if
a quote is not closed. -/
def readWord : Nat → Quote → List Char → Word → Option (Word × List Char)
  | 0, _, _, _ => none
  | _ + 1, .bare, [], acc => some (acc.reverse, [])
  | _ + 1, _, [], _ => none
  | n + 1, .single, c :: cs, acc =>
    if c == '\'' then readWord n .bare cs acc
    else readWord n .single cs (.text (String.singleton c) true :: acc)
  | n + 1, .double, c :: cs, acc =>
    if c == '"' then readWord n .bare cs acc
    else if c == '$' then
      match variableAt cs with
      | some (name, rest) => readWord n .double rest (.variable name true :: acc)
      | none => readWord n .double cs (.text "$" true :: acc)
    else if c == '\\' then
      match cs with
      | '\n' :: rest => readWord n .double rest acc
      | d :: rest =>
        if d == '"' || d == '\\' || d == '$' then
          readWord n .double rest (.text (String.singleton d) true :: acc)
        else readWord n .double cs (.text "\\" true :: acc)
      | [] => none
    else readWord n .double cs (.text (String.singleton c) true :: acc)
  | n + 1, .bare, c :: cs, acc =>
    -- The character that ends the word is left for the next lexeme.
    if endsWord c then some (acc.reverse, c :: cs)
    -- The empty part says that there were quotes, even if nothing is in them.
    else if c == '\'' then readWord n .single cs (.text "" true :: acc)
    else if c == '"' then readWord n .double cs (.text "" true :: acc)
    else if c == '$' then
      match variableAt cs with
      | some (name, rest) => readWord n .bare rest (.variable name false :: acc)
      | none => readWord n .bare cs (.text "$" false :: acc)
    else if c == '\\' then
      match cs with
      | '\n' :: rest => readWord n .bare rest acc
      | d :: rest => readWord n .bare rest (.text (String.singleton d) true :: acc)
      | [] => some ((.text "\\" false :: acc).reverse, [])
    else readWord n .bare cs (.text (String.singleton c) false :: acc)

/-- The operators, longer ones first. -/
def operators : List String := ["&&", "||", ";;", ";", "&", "|", "(", ")"]

/-- The redirections, longer ones first, with the stream they redirect. -/
def redirections : List (String × Nat × RedirectKind) :=
  [(">>", 1, .append), (">&", 1, .duplicate), (">", 1, .write), ("<", 0, .read)]

def operatorAt (cs : List Char) : Option (Lexeme × List Char) :=
  operators.findSome? fun op =>
    if op.toList.isPrefixOf cs then some (.operator op, cs.drop op.length) else none

/-- Read a redirection, with the number of its stream in front or without. -/
def redirectAt (cs : List Char) : Option (Lexeme × List Char) :=
  let at? (stream : Option Nat) (cs : List Char) : Option (Lexeme × List Char) :=
    redirections.findSome? fun (sign, usual, kind) =>
      if sign.toList.isPrefixOf cs then
        some (.redirect (stream.getD usual) kind, cs.drop sign.length)
      else none
  match cs with
  -- A digit in front of the sign is the number of a stream, not a word.
  | c :: rest => if c.isDigit then at? (some (c.toNat - '0'.toNat)) rest else at? none cs
  | [] => none

/-- The lexemes of a script with their line numbers. -/
def lexemes : Nat → Nat → List Char → Option (List (Nat × Lexeme))
  | 0, _, _ => none
  | _ + 1, _, [] => some []
  | n + 1, line, c :: cs =>
    if c == ' ' || c == '\t' then lexemes n line cs
    else if c == '\n' then ((line, .newline) :: ·) <$> lexemes n (line + 1) cs
    else if c == '#' then lexemes n line (cs.dropWhile (· != '\n'))
    else
      match redirectAt (c :: cs) <|> operatorAt (c :: cs) with
      | some (t, rest) => ((line, t) :: ·) <$> lexemes n line rest
      | none =>
        match readWord (cs.length + 2) .bare (c :: cs) [] with
        | some (w, rest) =>
          -- A quoted word may go over several lines.
          let used := (c :: cs).take (cs.length + 1 - rest.length)
          ((line, .word w) :: ·) <$> lexemes n (line + used.count '\n') rest
        | none => none

end SmaliView.Shell
