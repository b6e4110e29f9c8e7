import SmaliView.Pipeline.Resolve

/-!
# The bench

The bench answers the questions of plans with a given assembler and decompiler. It asks a tool only
once whether it can be run, and keeps a record of the calls.
-/

namespace SmaliView

/-- The two tools of a conversion. -/
structure Toolbox where
  assembler : Assembler
  decompiler : Decompiler

/-- One call of a tool. -/
inductive ToolCall where
  /-- The assembler was called; the unit had this content, if it could be read. -/
  | assemble (request : AssembleRequest) (content : Option Text.Bytes)
  | decompile (request : DecompileRequest)
deriving DecidableEq, Repr, Inhabited

def ToolCall.isAssemble : ToolCall → Bool
  | .assemble .. => true
  | .decompile _ => false

/-- The files and what is known about the tools. -/
structure Bench where
  tree : FileTree
  /-- Whether the tools can be run, as far as they were asked. -/
  assemblerReady : Option Bool := none
  decompilerReady : Option Bool := none
  /-- The calls so far, the last one first. -/
  calls : List ToolCall := []
deriving Repr, Inhabited

namespace Bench

/-- The bench with the token of the conversion that uses it. -/
abbrev Turn := Bench × Token

def act {α : Type} (work : Act α) : StateM Turn α := fun (bench, token) =>
  match work.run ⟨bench.tree, token⟩ with
  | (a, scene) => (a, { bench with tree := scene.tree }, scene.token)

/-- Ask a tool whether it can be run, unless that is known. -/
def known (memory : Bench → Option Bool) (remember : Bench → Bool → Bench) (ask : Act Bool) :
    StateM Turn Bool := do
  match memory (← get).1 with
  | some ready => return ready
  | none =>
    -- Asking may run a program; the answer is kept for the session.
    let ready ← act ask
    modify fun (bench, token) => (remember bench ready, token)
    return ready

def note (q : Question) : StateM Turn Unit := modify fun (bench, token) =>
  match q with
  | .assemble request =>
    -- The content is noted, since a unit of editor text is gone after the call.
    let content := (bench.tree.read request.unit).toOption
    ({ bench with calls := .assemble request content :: bench.calls }, token)
  | .decompile request => ({ bench with calls := .decompile request :: bench.calls }, token)
  | _ => (bench, token)

/-- The answer to a question. -/
def answer (tools : Toolbox) : (q : Question) → StateM Turn q.Answer
  | .isCancelled => return (← get).2.fired
  | .look => return (← get).1.tree
  | .change tree => modify fun (bench, token) => ({ bench with tree }, token)
  | .assemblerReady =>
    known Bench.assemblerReady (fun bench b => { bench with assemblerReady := some b })
      tools.assembler.ready
  | .decompilerReady =>
    known Bench.decompilerReady (fun bench b => { bench with decompilerReady := some b })
      tools.decompiler.ready
  | .assemble request => act (tools.assembler.assemble request).run
  | .decompile request => act (tools.decompiler.decompile request).run

/-- Note a question and answer it. -/
def respond (tools : Toolbox) (q : Question) : StateM Turn q.Answer := do
  note q
  answer tools q

def perform {α : Type} (tools : Toolbox) (plan : Plan α) : StateM Turn α :=
  plan.run (respond tools)

end Bench

end SmaliView
