import SmaliView.Pipeline.Stages

/-!
# Conversions

`Pipeline.resolve` tries the stages in order until one succeeds. A failed stage falls through to the
next; after the last one the failures are explained. Whether the conversion was given up is asked
before and after every stage, and being given up wins over any result.
-/

namespace SmaliView

/-- How a conversion ends: with an outcome, or by breaking off. -/
inductive Resolution where
  | outcome (o : Outcome)
  | panicked (message : String)
deriving DecidableEq, Repr, Inhabited

namespace Pipeline

/-- The text that the header is read from: editor text, or the file if its path names no class. -/
def headerText (file : Path) : Option String → Plan (Option String)
  | some text => return some text
  | none =>
    match ClassName.ofPath? file with
    | some _ => return none
    -- A file that cannot be read has no header; the stages say what is missing.
    | none => return ((← Plan.look).read file).toOption.map Text.decodeLossy

def tryStage (p : Pipeline) (probe : Probe) (text : Option String) : Stage → Plan Report
  | .realtime => return { result := ← (p.realtime probe text).run }
  | .container => p.enclosing probe
  | .existing => p.existing probe

structure Progress where
  attempts : List Attempt := []
  searched : List Path := []
deriving DecidableEq, Repr, Inhabited

/-- Add the hint of an attempt for which a tool was missing, unless it is there. -/
def addHint (hints : List String) (a : Attempt) : List String :=
  match a.error.hint? with
  | some hint => if hint ∈ hints then hints else hints ++ [hint]
  | none => hints

def toolHints (attempts : List Attempt) : List String :=
  attempts.foldl addHint []

/-- Where smali units are expected. -/
def rootHint : String :=
  "smali files are expected under a 'smali' or 'smali_classes<N>' directory"

/-- Where Java source can be placed. -/
def sourceHint : String :=
  "decompiled Java can be placed in 'sources/' or 'java_src/' next to the smali directory"

/-- Why no stage succeeded. -/
def explain (probe : Probe) (tried : Progress) : Explanation where
  summary := "Unable to convert " ++ probe.file.fileName?.getD probe.file.text ++ " to Java"
  attempts := tried.attempts
  searched := tried.searched
  hints := toolHints tried.attempts
    -- A unit outside of every bytecode root is told where units are expected.
    ++ (if probe.root.isNone then [rootHint] else []) ++ [sourceHint]

/-- The outcome when no stage succeeded: a failure if one of them broke. -/
def conclude (probe : Probe) (tried : Progress) : Outcome :=
  if tried.attempts.any (·.error.isUnexpected) then .failed (explain probe tried)
  else .notFound (explain probe tried)

/-- Try stages in order. -/
def tryStages (p : Pipeline) (probe : Probe) (text : Option String) :
    List Stage → Progress → Plan Resolution
  | [], tried => do
    if ← Plan.isCancelled then return .outcome .cancelled
    return .outcome (conclude probe tried)
  | stage :: rest, tried => do
    if ← Plan.isCancelled then return .outcome .cancelled
    -- The token is asked before the stage starts, and again once it has a result.
    let report ← p.tryStage probe text stage
    match report.result with
    -- A stage that breaks off takes the conversion with it; the token is not asked any more.
    | .error (.panic message) => return .panicked message
    | .ok source =>
      if ← Plan.isCancelled then return .outcome .cancelled
      return .outcome (.success source)
    | .error (.error e) =>
      if ← Plan.isCancelled then return .outcome .cancelled
      -- A tool may report a cancellation that the token does not show.
      if e.isCancelled then return .outcome .cancelled
      p.tryStages probe text rest
        ⟨tried.attempts ++ [⟨stage, e⟩], tried.searched ++ report.searched⟩

/-- Convert a smali unit, given as editor text or as a file. -/
def resolve (p : Pipeline) (file : Path) (text : Option String) : Plan Resolution := do
  let header ← headerText file text
  p.tryStages (Probe.of file header) text Stage.all {}

end Pipeline

end SmaliView
