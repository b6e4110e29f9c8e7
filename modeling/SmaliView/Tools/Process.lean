import SmaliView.Shell.Run
import SmaliView.Tools.Basic
import SmaliView.Tools.ProgramOutput

/-!
# Tools that are programs

A tool that is a program is run with arguments and without input. If its token fires while it runs
it is killed. A program that is not there, or may not be run, makes the tool unavailable; any
other trouble at its start is unexpected. What programs do is left to a `Host`: the tools know
nothing of them but how they end and which files they leave.
-/

namespace SmaliView

/-- A program with the directories it is looked for in. -/
structure Launcher where
  program : String
  search : List Path
deriving DecidableEq, Repr, Inhabited

/-- A program that was started. It acts on the scene until its end is seen or it is given up. -/
abbrev Running := Act (Except SystemError ProgramOutput)

/-- What starts programs and waits for them. -/
structure Host where
  /-- Start a program with arguments. -/
  start : Launcher → List String → Act (Except SystemError Running)
  /-- The milliseconds from the last look at the token of a running program until its end is
  seen. -/
  noticing : Nat := 0
  /-- The milliseconds from then until the token is looked at once more. -/
  reporting : Nat := 0

namespace Launcher

/-- Whether a text can be handed to the system. -/
def hasNul (s : String) : Bool := '\x00' ∈ s.toList

/-- The program, if it can be started with the arguments. -/
def find (l : Launcher) (tree : FileTree) (args : List String) :
    Except SystemError Shell.Program :=
  if hasNul l.program || args.any hasNul then .error .argumentWithNul
  else Shell.findProgram tree l.search l.program

/-- Run a program of the shell until it ends. One that is killed ends by a signal. -/
def execute (l : Launcher) (program : Shell.Program) (args : List String) : Act ProgramOutput :=
  fun scene =>
    let start : Shell.State := { tree := scene.tree, token := scene.token, search := l.search }
    match (Shell.execute program args).run start with
    | (ending, s) =>
      let status := match ending with
        | .status n => some (n : Int)
        -- A program that did not end by itself has no exit status.
        | .signal | .killed => none
      (⟨status == some 0, status, Text.decodeLossy s.out, Text.decodeLossy s.err⟩,
        ⟨s.tree, s.token⟩)

end Launcher

/-- The programs that a shell runs. -/
def Host.shell : Host where
  start l args := fun scene =>
    match l.find scene.tree args with
    | .error e => (.error e, scene)
    | .ok program => (.ok (.ok <$> l.execute program args), scene)

namespace Launcher

def startError (label : ToolLabel) (e : SystemError) : StageError :=
  -- These say that the program cannot be run here, not that the system is in trouble.
  if e = .noEntry || e = .accessDenied || e = .notPermitted then label.missing
  else .unexpected ("Failed to spawn " ++ label.name ++ ": " ++ e.message)

def waitError (label : ToolLabel) (e : SystemError) : StageError :=
  .unexpected ("Failed to wait for " ++ label.name ++ ": " ++ e.message)

/-- Run a program as a tool. The token is looked at before the start, as long as the program runs,
and after its end; a token that has fired comes before an end. -/
def run (l : Launcher) (host : Host) (label : ToolLabel) (args : List String) :
    Work ProgramOutput := do
  Work.checkToken
  match ← (host.start l args : Act (Except SystemError Running)) with
  | .error e => Work.fail (startError label e)
  | .ok running =>
    let ended ← (running : Act (Except SystemError ProgramOutput))
    Work.checkToken
    Work.pass host.noticing
    match ended with
    | .error e => Work.fail (waitError label e)
    | .ok output =>
      Work.pass host.reporting
      Work.checkToken
      return output

/-- Whether the program can be run: it is asked for its version, whatever becomes of the request. -/
def ready (l : Launcher) (host : Host) (args : List String) : Act Bool := fun scene =>
  -- The request has a token of its own: giving a conversion up does not end it.
  match host.start l (args ++ ["--version"]) { scene with token := {} } with
  | (.error _, after) => (false, { after with token := scene.token })
  | (.ok running, begun) =>
    match running begun with
    | (ended, after) => (ended.toOption.any (·.success), { after with token := scene.token })

end Launcher

end SmaliView
