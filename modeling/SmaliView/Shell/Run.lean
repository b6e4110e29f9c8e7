import SmaliView.Shell.Script
import SmaliView.Shell.Utility
import SmaliView.Text.Utf8

/-!
# Running programs

A program is a script, found in the files through the directories of the search path, or a utility
of the system. Scripts run on fuel: one unit for every level of nesting and every turn of a loop.
-/

namespace SmaliView.Shell

open SmaliView.Text (Bytes)

inductive Program where
  /-- A script, with the name it is started under. -/
  | script (name : Path) (source : List Char)
  | utility (name : String)
deriving Repr, Inhabited

/-- The directories of the system's own programs. -/
def systemDirectories : List Path := [⟨"/usr/bin"⟩, ⟨"/bin"⟩]

/-- The interpreters that run scripts. -/
def interpreters : List String := ["/bin/sh", "/usr/bin/sh", "/bin/bash", "/usr/bin/env sh"]

/-- The error of a file that is no program. -/
def notProgram : SystemError := .code 8

def programAt (tree : FileTree) (path : Path) : Except SystemError Program :=
  let isSystem := systemDirectories.any fun d => path.parent?.any d.same
  match path.fileName? with
  | some name =>
    if isSystem && name ∈ utilities then .ok (.utility name)
    else do
      match ← tree.find path with
      | .file content _ may =>
        if !may.executable then .error .accessDenied
        else
          let source := (Text.decodeLossy content).toList
          let first := source.takeWhile (· != '\n')
          if !("#!".toList.isPrefixOf first) then .error notProgram
          else if Text.trimmed (String.ofList (first.drop 2)) ∈ interpreters then
            .ok (.script path source)
          -- The interpreter is not there, so the script seems not to be there either.
          else .error .noEntry
      | _ => .error .accessDenied
  | none => .error .accessDenied

/-- Look for a program in directories. One that may not be run is passed over, but then the error
says so. -/
def searchFor (tree : FileTree) (name : String) (denied : Bool) :
    List Path → Except SystemError Program
  | [] => .error (if denied then .accessDenied else .noEntry)
  | dir :: dirs =>
    match programAt tree (dir / name) with
    | .ok p => .ok p
    | .error e =>
      if e = .accessDenied then searchFor tree name true dirs
      else if e = .noEntry || e = .notDirectory then searchFor tree name denied dirs
      else .error e

def findProgram (tree : FileTree) (search : List Path) (name : String) :
    Except SystemError Program :=
  if name.isEmpty then .error .noEntry
  else if '/' ∈ name.toList then programAt tree ⟨name⟩
  else searchFor tree name false search

/-- The fuel of a program. -/
def programFuel : Nat := 10000

/-- Set the last status and go on. -/
def ended (status : Nat) : Action Flow := do
  modify ({ · with status })
  return .next

/-- Do something with the state set aside: afterwards only the files, the output, the status and the
time are taken over. -/
def aside (f : State → State) (action : Action Flow) : Action Flow := do
  let old ← get
  modify f
  let flow ← action
  modify fun s => { s with
    name := old.name, args := old.args, vars := old.vars }
  return match flow with
    -- Only the inner shell has ended.
    | .exit => .next
    | flow => flow

/-- Follow redirections; the message of the one that fails. -/
def follow (io : Streams) : List Redirect → Action (Except String Streams)
  | [] => return .ok io
  | r :: rs => do
    let s ← get
    let target := textOf s r.target
    let set (sink : Sink) : Streams :=
      if r.stream == 2 then { io with err := sink } else { io with out := sink }
    let opened : Except String (Streams × FileTree) :=
      match r.kind with
      | .duplicate =>
        .ok (if target == "2" then set io.err else if target == "1" then set io.out else io, s.tree)
      | .read =>
        if target == nullDevice then .ok ({ io with input := [] }, s.tree)
        else match s.tree.read ⟨target⟩ with
          | .ok content => .ok ({ io with input := content }, s.tree)
          | .error e => .error ("cannot open " ++ target ++ ": " ++
              (if e = .noEntry then "No such file" else describe e))
      | .write | .append =>
        if target == nullDevice then .ok (set .nowhere, s.tree)
        else
          -- The file is made, or emptied, before the command runs.
          let begun :=
            if r.kind == .append then s.tree.append ⟨target⟩ [] else s.tree.write ⟨target⟩ []
          match begun with
          | .ok tree => .ok (set (.file (s.tree.absolute ⟨target⟩)), tree)
          | .error e => .error ("cannot create " ++ target ++ ": " ++
              (if e = .noEntry then "Directory nonexistent" else describe e))
    match opened with
    | .ok (io, tree) =>
      modify ({ · with tree })
      follow io rs
    | .error e => return .error e

def complain (io : Streams) (line : Nat) (message : String) : Action Unit := do
  writeLine io.err ((← get).name ++ ": " ++ toString line ++ ": " ++ message)

/-- Assign variables one after the other. -/
def assign (assignments : List (String × Word)) : Action Unit :=
  assignments.forM fun (name, w) =>
    modify fun s => { s with vars := (name, textOf s w) :: s.vars }

/-- Send a signal to the script itself. -/
def kill (args : List String) : Action Flow := do
  let target := args.getLast?.getD ""
  if target != processId then ended 1
  else if args.length > 1 && args.head? = some "-0" then ended 0
  else return .signalled

mutual

def run : Nat → Streams → Command → Action Flow
  | 0, _, _ => return .signalled
  | n + 1, io, c => do
    match c with
    | .nothing => return .next
    | .simple line assignments words redirects =>
      let args := fields (← get) words
      match ← follow io redirects with
      -- A redirection that fails keeps the command from running.
      | .error message =>
        complain io line message
        ended 2
      | .ok io =>
        assign assignments
        match args with
        | [] => ended 0
        | name :: args => invoke n io line name args
    | .seq a b =>
      match ← run n io a with
      | .next => if b matches .nothing then return .next else run n io b
      | flow => return flow
    | .both a b =>
      match ← run n io a with
      | .next => if (← get).status == 0 then run n io b else return .next
      | flow => return flow
    | .either a b =>
      match ← run n io a with
      | .next => if (← get).status == 0 then return .next else run n io b
      | flow => return flow
    | .negate a =>
      match ← run n io a with
      | .next => ended (if (← get).status == 0 then 1 else 0)
      | flow => return flow
    | .pipe a b =>
      -- What was written before the pipe is set aside, to see what the first command writes.
      let before := (← get).out
      modify ({ · with out := [] })
      let flow ← aside id (run n { io with out := .out } a)
      let passed := (← get).out
      modify ({ · with out := before })
      match flow with
      | .killed => return .killed
      | _ => aside id (run n { io with input := passed } b)
    | .subshell a => aside id (run n io a)
    | .redirected line a redirects =>
      match ← follow io redirects with
      | .error message =>
        complain io line message
        ended 2
      | .ok io => run n io a
    | .loop whileOk test body =>
      match ← run n io test with
      | .next =>
        if ((← get).status == 0) == whileOk then
          match ← run n io body with
          | .next => run n io (.loop whileOk test body)
          | flow => return flow
        else ended 0
      | flow => return flow
    | .each name words body =>
      let s ← get
      runEach n io name (match words with
        | some ws => fields s ws
        | none => s.args) body
    | .branch test yes no =>
      match ← run n io test with
      | .next =>
        if (← get).status == 0 then run n io yes
        else if no matches .nothing then ended 0
        else run n io no
      | flow => return flow
    | .choose subject arms =>
      let s ← get
      let text := (textOf s subject).toList
      match arms.find? fun (ps, _) => ps.any fun p => fits (patternOf s p) text with
      | some (_, body) => if body matches .nothing then ended 0 else run n io body
      | none => ended 0

/-- Run a command once for every value of a variable. -/
def runEach : Nat → Streams → String → List String → Command → Action Flow
  | 0, _, _, _, _ => return .signalled
  | _, _, _, [], _ => return .next
  | n + 1, io, name, v :: vs, body => do
    modify fun s => { s with vars := (name, v) :: s.vars }
    match ← run n io body with
    | .next => runEach n io name vs body
    | flow => return flow

def invoke : Nat → Streams → Nat → String → List String → Action Flow
  | 0, _, _, _, _ => return .signalled
  | n + 1, io, line, name, args => do
    match name with
    | ":" | "export" | "set" | "trap" | "wait" => ended 0
    | "exit" =>
      match args.head?.bind String.toNat? with
      | some status => modify ({ · with status := status % 256 })
      | none => pure ()
      return .exit
    | "shift" =>
      let by_ := (args.head?.bind String.toNat?).getD 1
      modify fun s => { s with args := s.args.drop by_ }
      ended 0
    | "kill" => kill args
    | "exec" =>
      match args with
      | [] => ended 0
      | name :: args =>
        match ← invoke n io line name args with
        -- A command that replaces the shell is its last one.
        | .next => return .exit
        | flow => return flow
    | _ =>
      if name ∈ ["true", "false", "echo", "printf", "[", "test"] then
        let (flow, status) ← runUtility io name args
        modify ({ · with status })
        return flow
      let s ← get
      match findProgram s.tree s.search name with
      | .ok program => start n io program args
      | .error e =>
        if e = .accessDenied then
          complain io line (name ++ ": Permission denied")
          ended 126
        else
          complain io line (name ++ ": not found")
          ended 127

def start : Nat → Streams → Program → List String → Action Flow
  | 0, _, _, _ => return .signalled
  | n + 1, io, program, args => do
    match program with
    | .utility name =>
      let (flow, status) ← runUtility io name args
      modify ({ · with status })
      return flow
    | .script name source =>
      match Script.parse? source with
      | none =>
        writeLine io.err (name.text ++ ": 1: Syntax error")
        ended 2
      | some c =>
        let flow ← aside
          (fun s => { s with name := name.text, args, vars := [], status := 0 }) (run n io c)
        match flow with
        -- Seen from outside, a script that was ended by its signal has this status.
        | .signalled => ended 143
        | flow => return flow

end

inductive Ending where
  | status (n : Nat)
  | signal
  | killed
deriving DecidableEq, Repr, Inhabited

def execute (program : Program) (args : List String) : Action Ending := do
  match program with
  | .utility name =>
    match ← runUtility {} name args with
    | (.killed, _) => return .killed
    | (_, status) => return .status status
  | .script name source =>
    match Script.parse? source with
    | none =>
      writeLine .err (name.text ++ ": 1: Syntax error")
      return .status 2
    | some c =>
      modify fun s => { s with name := name.text, args, vars := [], status := 0 }
      match ← run programFuel {} c with
      | .killed => return .killed
      | .signalled => return .signal
      | .next | .exit => return .status (← get).status

end SmaliView.Shell
