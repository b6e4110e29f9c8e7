import SmaliView.FileTree
import SmaliView.Outcome
import SmaliView.Token

/-!
# Tools

An *assembler* makes a container from one smali unit, a *decompiler* makes a tree of Java source
from a container. A tool acts on a `Scene`, the files and the token of the request, and replies with
an answer or with a failure. Whether it did its work is said by the status of the answer; a failure
is for tools that could not be run, were cancelled, or broke.
-/

namespace SmaliView

/-- Whether a tool did its work. -/
inductive ToolStatus where
  | success
  | failed
deriving DecidableEq, Repr, Inhabited

namespace ToolStatus

def all : List ToolStatus := [.success, .failed]

def word : ToolStatus → String
  | .success => "success"
  | .failed => "failed"

end ToolStatus

structure AssembleRequest where
  unit : Path
  /-- The class that the unit is expected to define. -/
  className : ClassName
  /-- Where the container is to be written. -/
  output : Path
deriving DecidableEq, Repr, Inhabited

structure AssembleAnswer where
  status : ToolStatus
  container : Option Path := none
  diagnostics : String := ""
deriving DecidableEq, Repr, Inhabited

structure DecompileRequest where
  container : Path
  /-- The directory to write below. -/
  output : Path
  /-- The only class that is wanted, if there is one. -/
  filter : Option ClassName
deriving DecidableEq, Repr, Inhabited

structure DecompileAnswer where
  status : ToolStatus
  /-- The directory that the packages of the Java source lie in. -/
  tree : Option Path := none
  diagnostics : String := ""
deriving DecidableEq, Repr, Inhabited

/-- How work can end without a result. -/
inductive Failure where
  | error (e : StageError)
  /-- The work broke off with a message. -/
  | panic (message : String)
deriving DecidableEq, Repr, Inhabited

/-- The failure of a refused file operation. -/
def Failure.system (e : SystemError) : Failure :=
  -- No tool promises anything about the files it finds.
  .error (.unexpected e.message)

/-- An answer, or a failure. -/
abbrev Reply (α : Type) := Except Failure α

/-- A tool as it is told to readers. -/
structure ToolLabel where
  name : String
  /-- What to do if the tool is missing. -/
  hint : String
deriving DecidableEq, Repr, Inhabited

/-- The error for a missing tool. -/
def ToolLabel.missing (l : ToolLabel) : StageError :=
  .toolUnavailable l.name l.hint

/-- What a running tool acts on. -/
structure Scene where
  tree : FileTree
  token : Token := {}
deriving Repr, Inhabited

abbrev Act (α : Type) := StateM Scene α

abbrev Work (α : Type) := ExceptT Failure (StateM Scene) α

namespace Work

/-- End with an error. -/
def fail {α : Type} (e : StageError) : Work α := throw (.error e)

/-- Change the files by an operation that may be refused. -/
def change (f : FileTree → Except SystemError FileTree) : Work Unit := do
  match f (← get).tree with
  | .ok tree => modify fun scene => { scene with tree }
  | .error e => throw (.system e)

/-- Make a directory and all that it lies in. What was made before a refusal stays. -/
def makeDirectories (p : Path) : Work Unit := do
  let (tree, made) := (← get).tree.makeAll p.ancestors
  -- The tree is taken over before the refusal is passed on.
  modify fun scene => { scene with tree }
  match made with
  | .ok () => return ()
  | .error e => throw (.system e)

/-- Look at the files by an operation that may be refused. -/
def look {α : Type} (f : FileTree → Except SystemError α) : Work α := do
  match f (← get).tree with
  | .ok a => return a
  | .error e => throw (.system e)

/-- Let time pass. -/
def pass (ms : Nat) : Work Unit :=
  modify fun scene => { scene with token := scene.token.later ms }

/-- End here if the token has fired. -/
def checkToken : Work Unit := do
  if (← get).token.fired then fail .cancelled

end Work

structure Assembler where
  label : ToolLabel
  /-- Whether the tool can be run. -/
  ready : Act Bool
  assemble : AssembleRequest → Work AssembleAnswer

structure Decompiler where
  label : ToolLabel
  /-- Whether the tool can be run. -/
  ready : Act Bool
  decompile : DecompileRequest → Work DecompileAnswer

end SmaliView
