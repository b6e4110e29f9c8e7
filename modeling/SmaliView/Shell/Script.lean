import SmaliView.Shell.Lexeme

/-!
# Shell scripts

The commands that a script consists of, and the reader that builds them from lexemes.
-/

namespace SmaliView.Shell

structure Redirect where
  stream : Nat
  kind : RedirectKind
  target : Word
deriving Repr, Inhabited

inductive Command where
  | nothing
  /-- Assignments, a command with arguments, and redirections. -/
  | simple (line : Nat) (assignments : List (String × Word)) (words : List Word)
      (redirects : List Redirect)
  | seq (first second : Command)
  /-- The second one only after success. -/
  | both (first second : Command)
  /-- The second one only after failure. -/
  | either (first second : Command)
  | negate (c : Command)
  | pipe (first second : Command)
  | subshell (c : Command)
  | redirected (line : Nat) (c : Command) (redirects : List Redirect)
  /-- Repeat as long as the test succeeds, or as long as it fails. -/
  | loop (whileOk : Bool) (test body : Command)
  /-- Once for every field of the words; of the arguments, if there are none. -/
  | each (name : String) (words : Option (List Word)) (body : Command)
  | branch (test yes no : Command)
  /-- The first arm with a pattern that fits. -/
  | choose (subject : Word) (arms : List (List Word × Command))
deriving Repr, Inhabited

namespace Script

/-- A reader of lexemes. -/
abbrev Reader (α : Type) := StateT (List (Nat × Lexeme)) Option α

/-- A word that is plain text, as it can be a keyword. -/
def plain? (w : Word) : Option String :=
  if w.all fun part => match part with
    | .text _ quoted => !quoted
    | .variable .. => false
  then some (String.join (w.map fun part => match part with
    | .text s _ => s
    | .variable .. => ""))
  else none

/-- The words that end a list of commands. -/
def closers : List String := ["then", "do", "done", "fi", "else", "elif", "esac", "\x7d"]

def peek : Reader (Option Lexeme) :=
  return (← get).head?.map (·.2)

def skip : Reader Unit := modify List.tail

def skipLines : Reader Unit :=
  modify (·.dropWhile (·.2 == .newline))

def keyword : Reader (Option String) := do
  match ← peek with
  | some (.word w) => return plain? w
  | _ => return none

def expect (s : String) : Reader Unit := do
  guard ((← keyword) = some s)
  skip

def expectOperator (s : String) : Reader Unit := do
  guard ((← peek) = some (.operator s))
  skip

def aWord : Reader Word := do
  match ← peek with
  | some (.word w) => skip; return w
  | _ => failure

def line : Reader Nat :=
  return ((← get).head?.map (·.1)).getD 0

/-- An assignment is a word that starts with a name and an equals sign. -/
def assignment? (w : Word) : Option (String × Word) :=
  let name := w.takeWhile fun part => match part with
    | .text s quoted => !quoted && s.toList.all isNameChar && s != ""
    | .variable .. => false
  match w.drop name.length with
  | .text "=" false :: value =>
    match plain? name with
    | some s =>
      if s.isEmpty || (s.toList.head?.any Char.isDigit) then none else some (s, value)
    | none => none
  | _ => none

/-- Words up to something else. -/
def readWords : Nat → Reader (List Word)
  | 0 => failure
  | n + 1 => do
    match ← peek with
    | some (.word w) =>
      skip
      return w :: (← readWords n)
    | _ => return []

/-- Redirections up to something else. -/
def redirects : Nat → Reader (List Redirect)
  | 0 => failure
  | n + 1 => do
    match ← peek with
    | some (.redirect stream kind) =>
      skip
      let target ← aWord
      return ⟨stream, kind, target⟩ :: (← redirects n)
    | _ => return []

/-- Words and redirections of a simple command. -/
def simpleParts : Nat → Reader (List Word × List Redirect)
  | 0 => failure
  | n + 1 => do
    match ← peek with
    | some (.word w) =>
      skip
      let (words, rs) ← simpleParts n
      return (w :: words, rs)
    | some (.redirect stream kind) =>
      skip
      let target ← aWord
      let (words, rs) ← simpleParts n
      return (words, ⟨stream, kind, target⟩ :: rs)
    | _ => return ([], [])

/-- The assignments that the words of a simple command start with, and the other words. -/
def splitAssignments : List Word → List (String × Word) × List Word
  | [] => ([], [])
  | w :: ws =>
    match assignment? w with
    | some a =>
      match splitAssignments ws with
      | (as, rest) => (a :: as, rest)
    | none => ([], w :: ws)

def simple (n : Nat) : Reader Command := do
  let l ← line
  let (words, rs) ← simpleParts n
  -- A command of nothing is no command; the lists take care of empty lines.
  guard (!(words.isEmpty && rs.isEmpty))
  let (assignments, words) := splitAssignments words
  return .simple l assignments words rs

/-- The patterns of an arm. -/
def patterns : Nat → Reader (List Word)
  | 0 => failure
  | n + 1 => do
    let w ← aWord
    match ← peek with
    | some (.operator "|") =>
      skip
      return w :: (← patterns n)
    | _ => return [w]

mutual

/-- Commands up to a lexeme that closes the list. -/
def list : Nat → Reader Command
  | 0 => failure
  | n + 1 => do
    skipLines
    match ← peek with
    | none | some (.operator ")") | some (.operator ";;") => return .nothing
    | _ =>
      -- Who opened the list checks that the right word closes it.
      if (← keyword).any (· ∈ closers) then return .nothing
      let first ← andOr n
      match ← peek with
      | some (.operator ";") | some (.operator "&") | some .newline =>
        skip
        return .seq first (← list n)
      | _ => return first

/-- Pipelines joined by `&&` and `||`. -/
def andOr : Nat → Reader Command
  | 0 => failure
  | n + 1 => do andOrRest n (← pipeline n)

/-- What follows the first pipeline. -/
def andOrRest : Nat → Command → Reader Command
  | 0, _ => failure
  | n + 1, left => do
    match ← peek with
    | some (.operator "&&") =>
      skip
      skipLines
      andOrRest n (.both left (← pipeline n))
    | some (.operator "||") =>
      skip
      skipLines
      andOrRest n (.either left (← pipeline n))
    | _ => return left

/-- Commands joined by `|`, maybe negated. -/
def pipeline : Nat → Reader Command
  | 0 => failure
  | n + 1 => do
    if (← keyword) = some "!" then
      skip
      return .negate (← pipeline n)
    let first ← command n
    match ← peek with
    | some (.operator "|") =>
      skip
      skipLines
      return .pipe first (← pipeline n)
    | _ => return first

def command : Nat → Reader Command
  | 0 => failure
  | n + 1 => do
    let l ← line
    match ← peek with
    | some (.operator "(") =>
      skip
      let body ← list n
      expectOperator ")"
      return .redirected l (.subshell body) (← redirects n)
    | _ =>
      match ← keyword with
      | some "\x7b" =>
        skip
        let body ← list n
        expect "\x7d"
        return .redirected l body (← redirects n)
      | some "while" => repeated n l true
      | some "until" => repeated n l false
      | some "for" =>
        skip
        let name ← keyword
        skip
        skipLines
        -- Without words the loop goes over the arguments of the script.
        let words ← if (← keyword) = some "in" then (do skip; some <$> readWords n) else pure none
        match ← peek with
        | some (.operator ";") => skip
        | _ => pure ()
        skipLines
        expect "do"
        let body ← list n
        expect "done"
        match name with
        | some name => return .redirected l (.each name words body) (← redirects n)
        | none => failure
      | some "if" =>
        skip
        let c ← branches n
        return .redirected l c (← redirects n)
      | some "case" =>
        skip
        let subject ← aWord
        skipLines
        expect "in"
        let as ← arms n
        return .redirected l (.choose subject as) (← redirects n)
      | _ => simple n

def repeated : Nat → Nat → Bool → Reader Command
  | 0, _, _ => failure
  | n + 1, l, whileOk => do
    skip
    let test ← list n
    expect "do"
    let body ← list n
    expect "done"
    return .redirected l (.loop whileOk test body) (← redirects n)

/-- The parts of a conditional after its first keyword. -/
def branches : Nat → Reader Command
  | 0 => failure
  | n + 1 => do
    let test ← list n
    expect "then"
    let yes ← list n
    match ← keyword with
    | some "elif" =>
      skip
      return .branch test yes (← branches n)
    | some "else" =>
      skip
      let no ← list n
      expect "fi"
      return .branch test yes no
    | _ =>
      expect "fi"
      return .branch test yes .nothing

def arms : Nat → Reader (List (List Word × Command))
  | 0 => failure
  | n + 1 => do
    skipLines
    if (← keyword) = some "esac" then
      skip
      return []
    match ← peek with
    | some (.operator "(") => skip
    | _ => pure ()
    let ps ← patterns n
    expectOperator ")"
    let body ← list n
    match ← peek with
    | some (.operator ";;") => skip
    | _ => pure ()
    return (ps, body) :: (← arms n)

end

def parse? (source : List Char) : Option Command := do
  let ts ← lexemes (source.length + 1) 1 source
  let (c, rest) ← (list (8 * ts.length + 8)).run ts
  guard rest.isEmpty
  return c

end Script

end SmaliView.Shell
