import SmaliView.Text.Blank

/-!
# What a program leaves behind

The output of a program that has ended, and the text that tells a reader what went wrong.
-/

namespace SmaliView

structure ProgramOutput where
  success : Bool
  /-- The exit status; none for a program that a signal ended. -/
  status : Option Int
  stdout : String
  stderr : String
deriving DecidableEq, Repr, Inhabited

namespace ProgramOutput

/-- How the program ended, if it said nothing itself. -/
def ending (o : ProgramOutput) : String :=
  match o.status with
  | some code => "exited with status " ++ toString code
  | none => "terminated by signal"

/-- What the program said, errors first, or else how it ended. -/
def diagnostics (o : ProgramOutput) : String :=
  match [Text.trimmed o.stderr, Text.trimmed o.stdout].filter (!·.isEmpty) with
  | [] => o.ending
  | parts => "\n".intercalate parts

end ProgramOutput

end SmaliView
