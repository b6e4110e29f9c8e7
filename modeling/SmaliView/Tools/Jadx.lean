import SmaliView.Settings.Basic
import SmaliView.Tools.Process

/-!
# The jadx decompiler

The decompiler writes Java source below `sources` in its output directory. It ends badly if any
class could not be decompiled; what counts is whether it wrote anything.
-/

namespace SmaliView

namespace DecompilerSettings

def args (s : DecompilerSettings) (r : DecompileRequest) : List String :=
  ["--no-res", "-d", r.output.text]
    ++ (match r.filter with
      | some c => if s.singleClass then ["--single-class", c.qualified] else []
      | none => [])
    ++ (match s.threads with
      | some n => ["-j", toString n]
      | none => [])
    ++ s.extraFlags ++ [r.container.text]

/-- The decompiler for readers. -/
def label (s : DecompilerSettings) : ToolLabel where
  name := "jadx"
  hint := "install jadx and make '" ++ s.binaryPath
    ++ "' available on PATH, or set tools.decompiler.binary_path"

/-- The directory of the Java source, if there is anything in it. -/
def sourceTree? (tree : FileTree) (output : Path) : Option Path :=
  let sources := output / "sources"
  match tree.list sources with
  | .ok (_ :: _) => some sources
  | _ => none

def answer (sources : Option Path) (output : ProgramOutput) : DecompileAnswer :=
  ⟨if sources.isSome then .success else .failed, sources, output.diagnostics⟩

/-- The decompiler with these settings. -/
def tool (s : DecompilerSettings) (search : List Path) (host : Host := .shell) : Decompiler where
  label := s.label
  ready := Launcher.ready ⟨s.binaryPath, search⟩ host []
  decompile r := do
    let output ← Launcher.run ⟨s.binaryPath, search⟩ host s.label (s.args r)
    return answer (sourceTree? (← get).tree r.output) output

end DecompilerSettings

end SmaliView
