import SmaliView.Settings.Basic
import SmaliView.Tools.Process

/-!
# The smali assembler

The assembler is a launcher script or a jar that is run by the Java launcher. A run that ends well
without having written the container has failed all the same.
-/

namespace SmaliView

namespace AssemblerSettings

def program (s : AssemblerSettings) : String :=
  if s.jar.isSome then s.javaPath else s.binaryPath

def launcherArgs (s : AssemblerSettings) : List String :=
  match s.jar with
  | some jar => ["-jar", jar.text]
  | none => []

def args (s : AssemblerSettings) (r : AssembleRequest) : List String :=
  s.launcherArgs ++ ["assemble", "--output", r.output.text]
    ++ (match s.apiLevel with
      | some level => ["--api", toString level]
      | none => [])
    ++ s.extraFlags ++ [r.unit.text]

/-- The assembler for readers. -/
def label (s : AssemblerSettings) : ToolLabel where
  name := "smali"
  hint := match s.jar with
    | some jar => "smali jar " ++ jar.text ++ " must be runnable with '" ++ s.javaPath ++ "'"
    | none => "install smali and make '" ++ s.binaryPath
        ++ "' available on PATH, or set tools.assembler.jar"

def answer (r : AssembleRequest) (produced : Bool) (output : ProgramOutput) : AssembleAnswer :=
  if output.success then
    -- A success without a container fails for a reason of its own.
    if produced then ⟨.success, some r.output, output.diagnostics⟩
    else ⟨.failed, none, "smali reported success but wrote no " ++ r.output.text⟩
  else ⟨.failed, none, output.diagnostics⟩

/-- The assembler with these settings. -/
def tool (s : AssemblerSettings) (search : List Path) (host : Host := .shell) : Assembler where
  label := s.label
  ready := Launcher.ready ⟨s.program, search⟩ host s.launcherArgs
  assemble r := do
    let output ← Launcher.run ⟨s.program, search⟩ host s.label (s.args r)
    return answer r ((← get).tree.contains r.output) output

end AssemblerSettings

end SmaliView
