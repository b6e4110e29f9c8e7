import SmaliView.Json.Forms
import SmaliView.Outcome

/-!
# The outcome of one conversion

The report shows the Java view of a unit, or the explanation that stands in its place, and says
where the view came from.
-/

namespace SmaliView

structure ConvertReport where
  file : Path
  outcome : Outcome
deriving DecidableEq, Repr, Inhabited

namespace ConvertReport

def origin? (r : ConvertReport) : Option Path :=
  r.outcome.source?.bind fun s => s.origin.map Origin.path

/-- The last line for readers: which way was taken. -/
def trailer (r : ConvertReport) : String :=
  match r.outcome.source? with
  | none => ""
  | some s =>
    let place := match r.origin? with
      | some p => " (" ++ p.text ++ ")"
      | none => ""
    "\n\n// converted by: " ++ s.provenance.word ++ place

def toText (r : ConvertReport) : String :=
  Text.trimmedEnd r.outcome.displayText ++ r.trailer

def toJson (r : ConvertReport) : Json :=
  .record
    [("file", .string r.file.text),
     ("status", .string r.outcome.status),
     ("provenance", .optional (fun s => .string s.provenance.word) r.outcome.source?),
     ("origin", .optional Path.toJson r.origin?),
     ("text", .string r.outcome.displayText)]

end ConvertReport

end SmaliView
