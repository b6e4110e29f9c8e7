import SmaliView.Tools.Basic

/-!
# Mock tools

Tools without programs behind them. The mock assembler "assembles" by copying the unit. The mock
decompiler reads the class back from the header in the container and writes the smallest Java source
for it, besides a list of fixed outputs.
-/

namespace SmaliView

/-- How a mock tool behaves. -/
inductive MockMode where
  | working
  /-- The tool says that it is missing. -/
  | missing
  /-- The tool ends without success. -/
  | failing (diagnostics : String)
  /-- The tool breaks off. -/
  | panicking (message : String)
deriving DecidableEq, Repr, Inhabited

/-- The time that a mock tool takes. -/
structure Pace where
  /-- The milliseconds that the tool sleeps before it works. -/
  delay : Nat := 0
  /-- Whether a token that fires meanwhile is seen before the delay is seen to be over. -/
  attentive : Bool := true
  /-- The milliseconds that the work takes. -/
  labour : Nat := 0
deriving DecidableEq, Repr, Inhabited

/-- Sleep, unless the token fires. -/
def Pace.sleep (pace : Pace) : Work Unit := do
  Work.checkToken
  Work.pass pace.delay
  if pace.attentive then Work.checkToken

namespace MockMode

/-- What comes before the work of a mock tool: a missing tool refuses, a breaking one breaks, and a
fired token ends it. The result is the diagnostics of a failing tool. -/
def start (mode : MockMode) (label : ToolLabel) (pace : Pace) : Work (Option String) := do
  match mode with
  -- A tool that is missing or breaks does so at once, whatever the token says.
  | .missing => Work.fail label.missing
  | .panicking message => throw (.panic message)
  | .working =>
    pace.sleep
    return none
  | .failing diagnostics =>
    pace.sleep
    return some diagnostics

/-- Whether the tool says that it can be run. -/
def isReady : MockMode → Bool
  | .missing => false
  | _ => true

end MockMode

namespace Mock

def assembler (mode : MockMode) (pace : Pace := {}) : Assembler where
  label := ⟨"mock-assembler", "mock assembler disabled"⟩
  ready := return mode.isReady
  assemble request := do
    match ← mode.start ⟨"mock-assembler", "mock assembler disabled"⟩ pace with
    | some diagnostics => return { status := .failed, diagnostics }
    | none =>
      Work.change (·.copy request.unit request.output)
      -- The token is looked at once more before success is reported.
      Work.pass pace.labour
      Work.checkToken
      return { status := .success, container := some request.output }

/-- Write the Java source of a class below a directory. -/
def writeSource (root : Path) (c : ClassName) (text : String) : Work Unit := do
  let path := root.join c.javaPath
  match path.parent? with
  | some parent => Work.makeDirectories parent
  | none => pure ()
  Work.change (·.write path (Text.bytes text))

def classIn (content : Text.Bytes) (filter : Option ClassName) : Option ClassName :=
  ClassName.ofHeader? (Text.decodeLossy content) <|> filter

/-- The mock decompiler, with the Java sources that it always writes. -/
def decompiler (mode : MockMode) (outputs : List (ClassName × String) := []) (pace : Pace := {}) :
    Decompiler where
  label := ⟨"mock-decompiler", "mock decompiler disabled"⟩
  ready := return mode.isReady
  decompile request := do
    match ← mode.start ⟨"mock-decompiler", "mock decompiler disabled"⟩ pace with
    | some diagnostics => return { status := .failed, diagnostics }
    | none =>
      let root := request.output / "sources"
      Work.makeDirectories root
      outputs.forM fun (c, text) => writeSource root c text
      let content ← Work.look (·.read request.container)
      match classIn content request.filter with
      | some c =>
        -- A fixed output stands for its class, and for all that are nested in it.
        unless outputs.any fun (d, _) => d.topLevel == c.topLevel do writeSource root c c.stub
      | none => pure ()
      Work.pass pace.labour
      Work.checkToken
      return { status := .success, tree := some root }

end Mock

end SmaliView
