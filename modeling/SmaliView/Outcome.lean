import SmaliView.ClassName
import SmaliView.Instant

/-!
# Outcomes

Converting a smali unit tries three *stages* in a fixed order. A stage ends with Java source or
with an error; when all of them fail, the errors are gathered into an *explanation*, which is
rendered as Java comments in place of the source. The `Outcome` of a conversion says which of these
happened.
-/

namespace SmaliView

/-- The ways to Java source, in the order in which they are tried. -/
inductive Stage where
  /-- Assemble the single unit and decompile what comes out. -/
  | realtime
  /-- Decompile an enclosing container. -/
  | container
  /-- Read Java source that lies on disk. -/
  | existing
deriving DecidableEq, Repr, Inhabited

namespace Stage

def all : List Stage := [.realtime, .container, .existing]

def word : Stage → String
  | .realtime => "realtime"
  | .container => "full_container"
  | .existing => "precomputed"

/-- The stage as a reader is told of it. -/
def label : Stage → String
  | .realtime => "single-file assemble + decompile"
  | .container => "decompile enclosing DEX/APK"
  | .existing => "existing Java sources"

end Stage

/-- The stage that Java source came from. -/
inductive Provenance where
  | realtime
  | container
  | existing
deriving DecidableEq, Repr, Inhabited

namespace Provenance

def all : List Provenance := [.realtime, .container, .existing]

def word : Provenance → String
  | .realtime => "realtime_pipeline"
  | .container => "container_decompiled"
  | .existing => "precomputed_source_found"

end Provenance

/-- The provenance of what a stage finds. -/
def Stage.provenance : Stage → Provenance
  | .realtime => .realtime
  | .container => .container
  | .existing => .existing

/-- The file that Java source was read or decompiled from. -/
structure Origin where
  path : Path
  modified : Option Instant
  length : Nat
deriving DecidableEq, Repr, Inhabited

/-- Whether two origins agree, their paths taken as places. -/
def Origin.same (a b : Origin) : Bool :=
  a.path.same b.path && a.modified == b.modified && a.length == b.length

/-- Java source with where it came from. -/
structure JavaSource where
  text : String
  provenance : Provenance
  origin : Option Origin := none
deriving DecidableEq, Repr, Inhabited

/-- Whether two sources agree, their paths taken as places. -/
def JavaSource.same (a b : JavaSource) : Bool :=
  a.text == b.text && a.provenance == b.provenance &&
    match a.origin, b.origin with
    | none, none => true
    | some x, some y => x.same y
    | _, _ => false

/-- How a stage, or the call of a tool, can fail. -/
inductive StageError where
  | toolUnavailable (tool hint : String)
  | assembleFailed (diagnostics : String)
  | decompileFailed (diagnostics : String)
  | sourceNotFound (reason : String)
  | cancelled
  /-- A failure outside of what tools promise. -/
  | unexpected (message : String)
deriving DecidableEq, Repr, Inhabited

namespace StageError

def message : StageError → String
  | .toolUnavailable tool hint => tool ++ " is not available: " ++ hint
  | .assembleFailed diagnostics => "Assembler failed: " ++ diagnostics
  | .decompileFailed diagnostics => "Decompiler failed: " ++ diagnostics
  | .sourceNotFound reason => "Source not found: " ++ reason
  | .cancelled => "Conversion cancelled"
  | .unexpected message => "Unexpected error: " ++ message

/-- Whether the failure is outside of what tools promise. -/
def isUnexpected : StageError → Bool
  | .unexpected _ => true
  | _ => false

/-- Whether the failure is a cancellation. -/
def isCancelled : StageError → Bool
  | .cancelled => true
  | _ => false

theorem isCancelled_iff {e : StageError} : e.isCancelled = true ↔ e = .cancelled := by
  cases e <;> simp [isCancelled]

/-- What to install, if a tool was missing. -/
def hint? : StageError → Option String
  | .toolUnavailable _ hint => some hint
  | _ => none

instance : ToString StageError := ⟨message⟩

end StageError

structure Attempt where
  stage : Stage
  error : StageError
deriving DecidableEq, Repr, Inhabited

structure Explanation where
  summary : String
  attempts : List Attempt := []
  searched : List Path := []
  hints : List String := []
deriving DecidableEq, Repr, Inhabited

namespace Explanation

/-- Whether two explanations agree, their paths taken as places. -/
def same (a b : Explanation) : Bool :=
  a.summary == b.summary && a.attempts == b.attempts && a.hints == b.hints &&
    a.searched.map Path.components == b.searched.map Path.components

/-- A titled list, left out when it is empty. -/
def block (title : String) (items : List String) : List String :=
  -- An empty list leaves no title behind.
  if items.isEmpty then [] else
    ["//", "// " ++ title ++ ":"] ++ items.map fun item => "//   - " ++ item

def item (a : Attempt) : String :=
  a.stage.label ++ ": " ++ a.error.message

/-- The comment, entry by entry. An entry is one line unless a text in it has line breaks. -/
def entries (e : Explanation) : List String :=
  ["// " ++ e.summary]
    ++ block "Tried" (e.attempts.map item)
    ++ block "Searched" (e.searched.map Path.text)
    ++ block "Check" e.hints

/-- The comment that stands in place of Java source. -/
def render (e : Explanation) : String :=
  String.join (e.entries.map fun entry => entry ++ "\n")

end Explanation

/-- How a conversion ended. -/
inductive Outcome where
  | success (source : JavaSource)
  /-- No stage found anything. -/
  | notFound (why : Explanation)
  /-- No stage found anything and one broke. -/
  | failed (why : Explanation)
  | cancelled
deriving DecidableEq, Repr, Inhabited

namespace Outcome

def isSuccess : Outcome → Bool
  | .success _ => true
  | _ => false

/-- Whether the conversion was given up. -/
def isCancelled : Outcome → Bool
  | .cancelled => true
  | _ => false

def source? : Outcome → Option JavaSource
  | .success source => some source
  | _ => none

/-- What to show: Java source, or comments in its place. -/
def displayText : Outcome → String
  | .success source => source.text
  | .notFound why => why.render
  | .failed why => why.render
  -- Nothing is shown for a view that is not wanted any more.
  | .cancelled => ""

def status : Outcome → String
  | .success _ => "success"
  | .notFound _ => "not_found"
  | .failed _ => "failed"
  | .cancelled => "cancelled"

/-- Whether two outcomes agree, their paths taken as places. -/
def same : Outcome → Outcome → Bool
  | .success a, .success b => a.same b
  | .notFound a, .notFound b => a.same b
  | .failed a, .failed b => a.same b
  | .cancelled, .cancelled => true
  | _, _ => false

end Outcome

end SmaliView
