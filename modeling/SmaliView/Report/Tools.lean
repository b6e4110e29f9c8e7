import SmaliView.Json.Value
import SmaliView.Pipeline.Bench
import SmaliView.Tools.Jadx
import SmaliView.Tools.Smali

/-!
# Which tools are there

The report asks both tools whether they can be run, and says what to do about those that cannot.
-/

namespace SmaliView

/-- The tools with the given settings. -/
def ToolSettings.toolbox (s : ToolSettings) (search : List Path) : Toolbox :=
  ⟨s.assembler.tool search, s.decompiler.tool search⟩

structure ToolReport where
  role : String
  label : ToolLabel
  available : Bool
deriving DecidableEq, Repr, Inhabited

namespace ToolReport

def all (tools : Toolbox) : Act (List ToolReport) := do
  let assembles ← tools.assembler.ready
  let decompiles ← tools.decompiler.ready
  return [⟨"assembler", tools.assembler.label, assembles⟩,
    ⟨"decompiler", tools.decompiler.label, decompiles⟩]

def column (width : Nat) (s : String) : String :=
  s ++ String.ofList (List.replicate (width - s.length) ' ')

def line (role tool status : String) : String :=
  column 12 role ++ " " ++ column 20 tool ++ " " ++ status

def status (r : ToolReport) : String :=
  if r.available then "available" else "missing: " ++ r.label.hint

def toText (reports : List ToolReport) : String :=
  "\n".intercalate <|
    [line "ROLE" "TOOL" "STATUS", String.ofList (List.replicate 48 '-')]
    ++ reports.map fun r => line r.role r.label.name r.status

def itemJson (r : ToolReport) : Json :=
  .record
    [("role", .string r.role), ("name", .string r.label.name),
     ("available", .bool r.available), ("hint", .string r.label.hint)]

def toJson (reports : List ToolReport) : Json :=
  .record [("tools", .array (reports.map itemJson))]

end ToolReport

end SmaliView
