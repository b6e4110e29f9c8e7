import SmaliView.Json.Value
import SmaliView.Layout

/-!
# Where a unit's Java source would be looked for

The report lists, for one smali unit, what its path tells and every place that a conversion may
look at, with a mark at those where a file is.
-/

namespace SmaliView

/-- A place that a conversion may look at. -/
structure Candidate where
  path : Path
  isThere : Bool
deriving DecidableEq, Repr, Inhabited

/-- Where the class of a unit was read from. -/
inductive ClassSource where
  | path
  | header
  | nowhere
deriving DecidableEq, Repr, Inhabited

def ClassSource.word : ClassSource → String
  | .path => "path"
  | .header => "header"
  | .nowhere => "none"

def Probe.classSource (probe : Probe) : ClassSource :=
  match probe.pathClass, probe.className with
  | some _, _ => .path
  | none, some _ => .header
  | none, none => .nowhere

/-- All that is told about the places of one unit. -/
structure LocateReport where
  probe : Probe
  containers : List Candidate
  sources : List Candidate
deriving DecidableEq, Repr, Inhabited

namespace LocateReport

/-- Look at the places of a unit, with the text that the unit is known to have. -/
def of (layout : Layout) (tree : FileTree) (file : Path) (text : Option String) : LocateReport :=
  let probe := Probe.of file text
  -- A source that a conversion would pass over as unreadable is marked as well.
  let mark (p : Path) : Candidate := ⟨p, tree.isFile p⟩
  { probe
    containers := (layout.containers tree probe).map mark
    sources := (layout.sources probe).map mark }

def line (c : Candidate) : String :=
  "  " ++ (if c.isThere then "[x]" else "[ ]") ++ " " ++ c.path.text

def toText (r : LocateReport) : String :=
  let orDash (s : Option String) : String := s.getD "-"
  "\n".intercalate <|
    ["File:          " ++ r.probe.file.text,
     "Bytecode root: " ++ orDash (r.probe.root.map (·.dir.text)),
     "Class:         " ++ orDash (r.probe.className.map ClassName.qualified)
       ++ " (from " ++ r.probe.classSource.word ++ ")",
     "Anchor:        " ++ orDash (r.probe.anchor.map Path.text),
     "", "Containers:"]
    ++ r.containers.map line ++ ["", "Java sources:"] ++ r.sources.map line

def candidateJson (c : Candidate) : Json :=
  .record [("path", .string c.path.text), ("exists", .bool c.isThere)]

def toJson (r : LocateReport) : Json :=
  .record
    [("file", .string r.probe.file.text),
     ("bytecode_root", .optional (fun root => .string root.dir.text) r.probe.root),
     ("class", .optional (fun c => .string c.qualified) r.probe.className),
     ("class_source", .string r.probe.classSource.word),
     ("anchor", .optional (fun a => .string a.text) r.probe.anchor),
     ("containers", .array (r.containers.map candidateJson)),
     ("sources", .array (r.sources.map candidateJson))]

end LocateReport

end SmaliView
