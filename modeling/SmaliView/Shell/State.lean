import SmaliView.FileTree
import SmaliView.Shell.Lexeme
import SmaliView.Token

/-!
# A shell at work

What a running script acts on, where its output goes, and how its words become the arguments of
commands. Time passes only while a script sleeps; if the one who waits for the script gives it up
meanwhile, it is killed.
-/

namespace SmaliView.Shell

open SmaliView.Text (Bytes bytes)

inductive Flow where
  /-- The script goes on. -/
  | next
  /-- The script ends with its last status. -/
  | exit
  /-- A signal ends the script. -/
  | signalled
  /-- The script was killed from outside. -/
  | killed
deriving DecidableEq, Repr, Inhabited

inductive Sink where
  | out
  | err
  | file (p : Path)
  | nowhere
deriving DecidableEq, Repr, Inhabited

structure Streams where
  out : Sink := .out
  err : Sink := .err
  input : Bytes := []
deriving Repr, Inhabited

structure State where
  tree : FileTree
  token : Token := {}
  /-- The directories that programs are looked for in. -/
  search : List Path
  /-- The name under which the script was started. -/
  name : String := "sh"
  args : List String := []
  vars : List (String × String) := []
  status : Nat := 0
  out : Bytes := []
  err : Bytes := []
deriving Repr, Inhabited

abbrev Action (α : Type) := StateM State α

/-- The number that a script knows itself by. -/
def processId : String := "4242"

/-- The file that swallows what is written to it. -/
def nullDevice : String := "/dev/null"

namespace State

/-- The value of a variable or parameter; empty if it has none. -/
def valueOf (s : State) (name : String) : String :=
  match name with
  | "#" => toString s.args.length
  | "?" => toString s.status
  | "$" => processId
  | "@" | "*" => " ".intercalate s.args
  | "0" => s.name
  | _ =>
    match name.toNat? with
    | some n => (s.args[n - 1]?).getD ""
    | none => (s.vars.lookup name).getD ""

end State

def write (sink : Sink) (content : Bytes) : Action Unit := modify fun s =>
  match sink with
  | .out => { s with out := s.out ++ content }
  | .err => { s with err := s.err ++ content }
  | .file p =>
    match s.tree.append p content with
    | .ok tree => { s with tree }
    -- A stream that cannot be written to swallows its text.
    | .error _ => s
  | .nowhere => s

def writeLine (sink : Sink) (line : String) : Action Unit :=
  write sink (bytes (line ++ "\n"))

/-- Let time pass; whether the script lives on. -/
def pass (ms : Nat) : Action Bool := do
  let token := (← get).token.later ms
  modify ({ · with token })
  return !token.fired

/-! ## From words to fields -/

/-- Fields under construction: the finished ones in reverse order, and an open one. -/
structure Fields where
  done : List String := []
  current : Option String := none
deriving Repr, Inhabited

namespace Fields

def push (f : Fields) (s : String) : Fields :=
  { f with current := some (f.current.getD "" ++ s) }

def close (f : Fields) : Fields :=
  match f.current with
  | some s => ⟨s :: f.done, none⟩
  | none => f

def toList (f : Fields) : List String := f.close.done.reverse

/-- Add text that is split at blanks. -/
def split (f : Fields) (s : String) : Fields :=
  s.toList.foldl (fun f c =>
    if c == ' ' || c == '\t' || c == '\n' then f.close else f.push (String.singleton c)) f

/-- Add each text as a field of its own; the first joins the open field, the last stays open. -/
def separate (f : Fields) : List String → Fields
  | [] => f
  | [s] => f.push s
  | s :: rest => ((f.push s).close).separate rest

end Fields

def addPart (s : State) (f : Fields) : Part → Fields
  -- An empty part in quotes still makes a field.
  | .text t quoted => if t.isEmpty && !quoted then f else f.push t
  -- Only here do the arguments stay as they are, blanks and all.
  | .variable "@" true => f.separate s.args
  | .variable "@" false | .variable "*" false =>
    s.args.foldl (fun f a => (f.split a).close) f
  | .variable name quoted =>
    if quoted then f.push (s.valueOf name) else f.split (s.valueOf name)

def fields (s : State) (words : List Word) : List String :=
  words.flatMap fun w => (w.foldl (addPart s) {}).toList

/-- The text of a word that is not split. -/
def textOf (s : State) (w : Word) : String :=
  String.join (w.map fun part => match part with
    | .text t _ => t
    | .variable name _ => s.valueOf name)

/-! ## Patterns -/

/-- A character of a pattern: a quoted one stands for itself. -/
structure PatternChar where
  char : Char
  quoted : Bool
deriving DecidableEq, Repr

/-- The pattern of a word. -/
def patternOf (s : State) (w : Word) : List PatternChar :=
  w.flatMap fun part => match part with
    | .text t quoted => t.toList.map fun c => ⟨c, quoted⟩
    | .variable name quoted => (s.valueOf name).toList.map fun c => ⟨c, quoted⟩

/-- Whether a text fits a pattern: `*` is any text, `?` any character. -/
def fits : List PatternChar → List Char → Bool
  | [], cs => cs.isEmpty
  | ⟨'*', false⟩ :: ps, cs => (List.range (cs.length + 1)).any fun n => fits ps (cs.drop n)
  | ⟨'?', false⟩ :: ps, cs =>
    match cs with
    | [] => false
    | _ :: cs => fits ps cs
  | p :: ps, cs =>
    match cs with
    | [] => false
    | c :: cs => p.char == c && fits ps cs

end SmaliView.Shell
