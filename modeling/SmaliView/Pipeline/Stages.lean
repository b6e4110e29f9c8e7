import SmaliView.Layout
import SmaliView.Pipeline.Plan

/-!
# The stages of a conversion

Each of the three stages is a plan that ends with Java source or with a failure, and tells where it
searched. What a stage writes goes into a *scratch directory* of its own, which is removed however
the stage ends.
-/

namespace SmaliView

/-- How conversions are made. -/
structure Pipeline where
  assembler : ToolLabel
  decompiler : ToolLabel
  layout : Layout
  /-- The calendar in which it is told when files were modified. -/
  calendar : Calendar
  /-- The directory for scratch directories; it is made if it is not there. -/
  workDirectory : Option Path := none
  /-- The directory for scratch directories if no other is given. -/
  temporary : Path
deriving Inhabited

/-- A plan that can fail. -/
abbrev StagePlan (α : Type) := ExceptT Failure Plan α

namespace StagePlan

variable {α : Type}

/-- End with an error. -/
def fail (e : StageError) : StagePlan α := throw (.error e)

/-- End with the failure of a file operation, if it was refused. -/
def orSystem : Except SystemError α → StagePlan α
  | .ok a => pure a
  | .error e => throw (.system e)

def assemble (r : AssembleRequest) : StagePlan AssembleAnswer :=
  ExceptT.mk (Plan.question (.assemble r))

def decompile (r : DecompileRequest) : StagePlan DecompileAnswer :=
  ExceptT.mk (Plan.question (.decompile r))

/-- End here if the token has fired. -/
def checkToken : StagePlan Unit := do
  if ← Plan.isCancelled then fail .cancelled

/-- What comes after the check is done only if the token has not fired. -/
theorem run_checkToken_bind (f : Unit → StagePlan α) :
    (checkToken >>= f).run = Plan.isCancelled >>= fun fired =>
      if fired = true then Plan.done (.error (.error .cancelled)) else (f ()).run := by
  refine congrArg (Plan.ask .isCancelled) (funext fun fired => ?_)
  cases fired <;> rfl

/-- End here if a tool cannot be run. -/
def need (ready : Plan Bool) (tool : ToolLabel) : StagePlan Unit := do
  unless ← ready do fail tool.missing

end StagePlan

open StagePlan

/-- A file as an origin. A conversion breaks off at a time without a date, although an origin need
not have a time. -/
def Origin.ofInfo (cal : Calendar) (path : Path) (info : FileInfo) : Reply Origin :=
  match cal.dateTime info.modified with
  | .ok t => .ok ⟨path, some t, info.length⟩
  | .error message => .error (.panic message)

namespace Pipeline

/-! ## Scratch directories -/

/-- What the name of a scratch directory starts with. -/
def scratchStem : String := "smali2java-"

def makeHome (p : Pipeline) (tree : FileTree) : FileTree × Except SystemError Unit :=
  match p.workDirectory with
  | some base => tree.makeAll base.ancestors
  | none => (tree, .ok ())

/-- Make a scratch directory. What was made for it to lie in stays if it is refused. -/
def makeScratch (p : Pipeline) (tree : FileTree) : FileTree × Except SystemError Path :=
  match p.makeHome tree with
  | (tree, .error e) => (tree, .error e)
  | (tree, .ok ()) =>
    match tree.makeFresh (p.workDirectory.getD p.temporary) scratchStem with
    | .ok (dir, tree) => (tree, .ok dir)
    | .error e => (tree, .error e)

/-- Work with a scratch directory, which is removed at the end. -/
def withScratch {α : Type} (p : Pipeline) (work : Path → StagePlan α) : StagePlan α :=
  ExceptT.mk do
    let (tree, made) := p.makeScratch (← Plan.look)
    Plan.change tree
    match made with
    | .error e => return .error (.system e)
    | .ok dir =>
      -- An error of the work is a result here, so the directory is removed after it, too.
      let result ← (work dir).run
      Plan.change ((← Plan.look).removeTree dir)
      return result

/-! ## Java source out of a container -/

def entriesIn (tree : Path) (c : ClassName) : List Path :=
  [tree.join c.javaPath, (tree / "sources").join c.javaPath]

/-- Read the Java source of a class from a decompiled tree. -/
def extract (files : FileTree) (tree : Path) (c : ClassName) : Reply String :=
  match (entriesIn tree c).find? files.isFile with
  | some path => ((files.read path).mapError Failure.system).map Text.decodeLossy
  | none =>
    .error (.error (.decompileFailed
      (c.javaPath.text ++ " is missing from the decompiler output")))

/-- The Java source of a class in what a decompiler has answered. -/
def javaIn (c : ClassName) (answer : DecompileAnswer) : StagePlan String :=
  match answer.status, answer.tree with
  | .success, some tree => do
    -- The decompiler may have run long; what it wrote is not read for a request given up.
    checkToken
    ExceptT.mk (return extract (← Plan.look) tree c)
  | _, _ => fail (.decompileFailed answer.diagnostics)

/-- Decompile a container and read the Java source of a class. -/
def javaOf (c : ClassName) (container scratch : Path) : StagePlan String := do
  javaIn c (← decompile ⟨container, scratch / "out", some c⟩)

/-! ## The first stage: assemble and decompile -/

/-- What editor text is called in a scratch directory. -/
def unitName (c : ClassName) : String :=
  c.smaliPath.fileName?.getD "unit.smali"

/-- The unit to assemble: the file itself, or editor text in a file of its own. -/
def unitFor (c : ClassName) (scratch file : Path) : Option String → StagePlan Path
  | none => pure file
  | some text => do
    let path := scratch / unitName c
    Plan.change (← orSystem ((← Plan.look).write path (Text.bytes text)))
    return path

/-- Assemble the unit and decompile the container that comes out. -/
def assembledSource (c : ClassName) (file : Path) (text : Option String) (scratch : Path) :
    StagePlan JavaSource := do
  let unit ← unitFor c scratch file text
  let answer ← assemble ⟨unit, c, scratch / "classes.dex"⟩
  match answer.status, answer.container with
  -- A tool that says it succeeded has to name what it wrote.
  | .success, some container =>
    checkToken
    return ⟨← javaOf c container scratch, .realtime, none⟩
  | _, _ => fail (.assembleFailed answer.diagnostics)

/-- Convert the unit with both tools. -/
def realtime (p : Pipeline) (probe : Probe) (text : Option String) : StagePlan JavaSource := do
  match probe.pathClass with
  -- The name in the header is not enough: only the path of the unit counts here.
  | none => fail (.sourceNotFound "class name could not be derived from the file path")
  | some c =>
    need (Plan.question .assemblerReady) p.assembler
    need (Plan.question .decompilerReady) p.decompiler
    p.withScratch (assembledSource c probe.file text)

/-! ## The second stage: an enclosing container -/

/-- The error of a search without a class. -/
def classUnknown : StageError :=
  .sourceNotFound "class name unknown: no smali root in the path and no .class directive"

/-- The items up to the first that satisfies `f`, it included. -/
def upTo {α : Type} (f : α → Bool) : List α → List α
  | [] => []
  | a :: as => if f a then [a] else a :: upTo f as

/-- What a stage comes to. -/
structure Report where
  result : Reply JavaSource
  /-- Where the stage searched. -/
  searched : List Path := []
deriving Repr, Inhabited

def containerSource (p : Pipeline) (c : ClassName) (container : Path) (info : FileInfo) :
    StagePlan JavaSource := do
  let text ← p.withScratch (javaOf c container)
  -- The time of the container is that of the search, before the decompiler ran.
  let origin ← ExceptT.mk (pure (Origin.ofInfo p.calendar container info))
  return ⟨text, .container, some origin⟩

def enclosing (p : Pipeline) (probe : Probe) : Plan Report := do
  match probe.className with
  | none => return { result := .error (.error classUnknown) }
  | some c =>
    if ← Plan.question .decompilerReady then
      let tree ← Plan.look
      let candidates := p.layout.containers tree probe
      -- The list ends with the container that is used.
      let searched := upTo tree.isFile candidates
      match candidates.findSome? fun path => (tree.fileInfo? path).map (path, ·) with
      | none =>
        let e := StageError.sourceNotFound "no enclosing DEX or APK found"
        return { result := .error (.error e), searched }
      | some (container, info) =>
        return { result := ← (p.containerSource c container info).run, searched }
    else return { result := .error (.error p.decompiler.missing) }

/-! ## The third stage: Java source on disk -/

def isReadable (tree : FileTree) (path : Path) : Bool :=
  tree.isFile path && (tree.read path).toBool

def sourceAt (cal : Calendar) (tree : FileTree) (path : Path) : Reply JavaSource := do
  let info ← (tree.info path).mapError Failure.system
  let content ← (tree.read path).mapError Failure.system
  return ⟨Text.decodeLossy content, .existing, some (← Origin.ofInfo cal path info)⟩

def existing (p : Pipeline) (probe : Probe) : Plan Report := do
  match probe.className with
  | none => return { result := .error (.error classUnknown) }
  | some c =>
    let tree ← Plan.look
    let candidates := p.layout.sources probe
    -- The list ends with the source that is read.
    let searched := upTo (isReadable tree) candidates
    match candidates.find? (isReadable tree) with
    | some path => return { result := sourceAt p.calendar tree path, searched }
    | none =>
      return {
        result := .error (.error (.sourceNotFound
          ("no Java source for " ++ c.qualified ++ " in " ++ toString candidates.length
            ++ " candidate locations")))
        searched }

end Pipeline

end SmaliView
