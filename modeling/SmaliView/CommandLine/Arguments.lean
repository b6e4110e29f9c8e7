import SmaliView.Path

/-!
# Command-line arguments

A command line names one command. Options that hold for all commands may stand in front of its
name or after it; the later place counts. `Invocation.ofArguments` reads a command line from left
to right and stops at the first thing that is wrong, or at a request for help or for the version.
-/

namespace SmaliView

inductive Verb where
  | convert
  | locate
  | tools
deriving DecidableEq, Repr, Inhabited

def Verb.ofName? : String → Option Verb
  | "convert" => some .convert
  | "locate" => some .locate
  | "tools" => some .tools
  | _ => none

/-- How many files a command takes. -/
def Verb.arity : Verb → Nat
  | .convert | .locate => 1
  | .tools => 0

inductive Command where
  /-- Show the Java view of a file: of its text, or of the file as it lies on disk. -/
  | convert (file : Path) (fromDisk : Bool)
  | locate (file : Path)
  | tools
deriving DecidableEq, Repr, Inhabited

structure CommandOptions where
  /-- Whether reports are for programs. -/
  json : Bool := false
  /-- The file of settings; it replaces the files of the project. -/
  config : Option Path := none
deriving DecidableEq, Repr, Inhabited

/-- What a command line asks for. -/
inductive Invocation where
  | run (options : CommandOptions) (command : Command)
  | version
  | help
  /-- It cannot be understood. -/
  | misuse
deriving DecidableEq, Repr, Inhabited

namespace Invocation

/-- What was given so far in one part of a command line. -/
structure Given where
  json : Bool := false
  config : Option String := none
  fromDisk : Bool := false
  files : List String := []
deriving DecidableEq, Repr, Inhabited

/-- Why reading stops early; the invocation to carry out instead. -/
abbrev Read (α : Type) := Except Invocation α

def Given.setConfig (g : Given) (value : String) : Read Given :=
  if g.config.isSome || value.isEmpty then .error .misuse
  else .ok { g with config := some value }

def Given.setJson (g : Given) : Read Given :=
  if g.json then .error .misuse else .ok { g with json := true }

def Given.setFromDisk (g : Given) : Read Given :=
  if g.fromDisk then .error .misuse else .ok { g with fromDisk := true }

/-- Whether an argument looks like an option. A single dash does not. -/
def isOption (arg : String) : Bool :=
  -- A dash alone is a file name.
  arg != "-" && arg.toList.head? == some '-'

/-- The value of an option in the argument after it. -/
def nextValue : List String → Read (String × List String)
  | value :: rest => if isOption value then .error .misuse else .ok (value, rest)
  | [] => .error .misuse

/-- A name with the value that an equals sign attaches to it. -/
def splitValue (cs : List Char) : String × Option String :=
  let name := String.ofList (cs.takeWhile (· != '='))
  match cs.dropWhile (· != '=') with
  | [] => (name, none)
  | _ :: value => (name, some (String.ofList value))

def long (verb : Option Verb) (name : String) (value : Option String) (rest : List String)
    (g : Given) : Read (Given × List String) :=
  match name, value with
  | "config", some v => return (← g.setConfig v, rest)
  | "config", none => do
    let (v, rest) ← nextValue rest
    return (← g.setConfig v, rest)
  | "json", none => return (← g.setJson, rest)
  | "from-disk", none =>
    if verb = some .convert then return (← g.setFromDisk, rest) else throw .misuse
  | "help", none => throw .help
  | "version", none => if verb.isNone then throw .version else throw .misuse
  | _, _ => throw .misuse

/-- Options of one letter behind one dash, with the arguments after them. -/
def short (verb : Option Verb) : List Char → List String → Given → Read (Given × List String)
  | [], rest, g => return (g, rest)
  | 'j' :: cs, rest, g => do short verb cs rest (← g.setJson)
  | ['c'], rest, g => do
    let (v, rest) ← nextValue rest
    return (← g.setConfig v, rest)
  | 'c' :: '=' :: cs, rest, g => return (← g.setConfig (String.ofList cs), rest)
  | 'c' :: cs, rest, g => return (← g.setConfig (String.ofList cs), rest)
  -- What was read before a request for help does not matter any more.
  | 'h' :: _, _, _ => throw .help
  | 'V' :: _, _, _ => if verb.isNone then throw .version else throw .misuse
  | _ :: _, _, _ => throw .misuse

def option (verb : Option Verb) (arg : String) (rest : List String) (g : Given) :
    Read (Given × List String) :=
  match arg.toList with
  | '-' :: '-' :: cs =>
    let (name, value) := splitValue cs
    long verb name value rest g
  | _ :: cs => short verb cs rest g
  | [] => throw .misuse

/-- Note a file. It has a name, and there are not more than the command takes. -/
def Given.addFile (verb : Verb) (g : Given) (file : String) : Read Given :=
  if file.isEmpty || g.files.length ≥ verb.arity then .error .misuse
  else .ok { g with files := g.files ++ [file] }

/-- The arguments of a command. After two dashes all are files. Fuel for every argument suffices. -/
def arguments (verb : Verb) : Nat → List String → Given → Read Given
  | 0, _, g | _, [], g => return g
  | n + 1, arg :: rest, g => do
    if arg = "--" then rest.foldlM (Given.addFile verb) g
    else if isOption arg then
      let (g, rest) ← option (some verb) arg rest g
      arguments verb n rest g
    else arguments verb n rest (← g.addFile verb arg)

/-- Help on what the arguments after the word name: on everything, or on one command. -/
def helpOn : List String → Invocation
  | [] | ["help"] => .help
  | [name] => if (Verb.ofName? name).isSome then .help else .misuse
  | _ => .misuse

/-- What stands in front of a command, the command's name, and its arguments. -/
def front : Nat → List String → Given → Read (Given × Verb × List String)
  | 0, _, _ | _, [], _ => throw .misuse
  | n + 1, arg :: rest, g => do
    match Verb.ofName? arg with
    | some verb => return (g, verb, rest)
    | none =>
      if arg = "help" then throw (helpOn rest)
      else if arg = "--" || !isOption arg then throw .misuse
      else
        let (g, rest) ← option none arg rest g
        front n rest g

/-- The command with a name and what was given for it. -/
def commandOf (verb : Verb) (g : Given) : Read Command :=
  match verb, g.files with
  | .convert, [file] => return .convert ⟨file⟩ g.fromDisk
  | .locate, [file] => return .locate ⟨file⟩
  | .tools, [] => return .tools
  | _, _ => throw .misuse

def read (args : List String) : Read Invocation := do
  let fuel := args.length + 1
  let (before, verb, rest) ← front fuel args {}
  let after ← arguments verb fuel rest {}
  let command ← commandOf verb after
  -- One part may not repeat an option, but both parts may have it.
  let options : CommandOptions :=
    ⟨before.json || after.json, (after.config <|> before.config).map Path.mk⟩
  return .run options command

/-- What a command line asks for. -/
def ofArguments (args : List String) : Invocation :=
  match read args with
  | .ok i => i
  | .error i => i

end Invocation

end SmaliView
