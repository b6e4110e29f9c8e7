import SmaliView.Tools.Basic

/-!
# Prepared tools

Tools that answer what they were told to answer, whatever they are asked. They stand in for tools
that break any promise.
-/

namespace SmaliView

/-- How a prepared tool ends. -/
inductive PreparedEnd where
  | refuse (e : StageError)
  | panic (message : String)
  /-- Answer with a status and diagnostics, and name the output or not. -/
  | answer (status : ToolStatus) (named : Bool) (diagnostics : String)
deriving DecidableEq, Repr, Inhabited

/-- What a prepared tool does when it is called. -/
structure Prepared where
  available : Bool := true
  hint : String
  /-- Whether the request is given up first. -/
  cancels : Bool := false
  ending : PreparedEnd
deriving DecidableEq, Repr, Inhabited

/-- What a prepared decompiler writes at a place below its output directory. -/
inductive PreparedOutput where
  | file (content : Text.Bytes)
  | directory
deriving DecidableEq, Repr, Inhabited

namespace Prepared

/-- Do the work of a prepared tool; the output is written unless the tool refuses or breaks. -/
def perform (p : Prepared) (write : Work Unit) : Work (ToolStatus × Bool × String) := do
  if p.cancels then modify fun scene => { scene with token := .spent }
  match p.ending with
  | .refuse e => Work.fail e
  | .panic message => throw (.panic message)
  | .answer status named diagnostics =>
    write
    return (status, named, diagnostics)

/-- An assembler that writes a given container, or none. -/
def assembler (p : Prepared) (container : Option Text.Bytes) : Assembler where
  label := ⟨"script-assembler", p.hint⟩
  ready := return p.available
  assemble request := do
    let (status, named, diagnostics) ← p.perform do
      match container with
      | some content => Work.change (·.write request.output content)
      | none => pure ()
    return ⟨status, if named then some request.output else none, diagnostics⟩

def writeOutput (root : Path) : Path × PreparedOutput → Work Unit
  | (p, .directory) => Work.makeDirectories (root.join p)
  | (p, .file content) => do
    match (root.join p).parent? with
    | some parent => Work.makeDirectories parent
    | none => pure ()
    Work.change (·.write (root.join p) content)

/-- A decompiler that writes given files. -/
def decompiler (p : Prepared) (outputs : List (Path × PreparedOutput)) : Decompiler where
  label := ⟨"script-decompiler", p.hint⟩
  ready := return p.available
  decompile request := do
    let (status, named, diagnostics) ← p.perform (outputs.forM (writeOutput request.output))
    return ⟨status, if named then some request.output else none, diagnostics⟩

end Prepared

end SmaliView
