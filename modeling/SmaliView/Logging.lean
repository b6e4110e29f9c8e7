import SmaliView.Instant
import SmaliView.Json.Value
import SmaliView.Settings.Basic
import SmaliView.Table

/-!
# Logging

Events go to the screen, and to a file if a directory for logs is set. `LogBook.install` sets
logging up from the settings, once for a process; an event is written if it is severe enough for
the installed threshold.
-/

namespace SmaliView

inductive Severity where
  | trace
  | debug
  | info
  | warn
  | error
deriving DecidableEq, Repr, Inhabited

namespace Severity

/-- All severities, the least severe first. -/
def all : List Severity := [.trace, .debug, .info, .warn, .error]

def word : Severity → String
  | .trace => "trace"
  | .debug => "debug"
  | .info => "info"
  | .warn => "warn"
  | .error => "error"

def rank : Severity → Nat
  | .trace => 0
  | .debug => 1
  | .info => 2
  | .warn => 3
  | .error => 4

def ofWord? (s : String) : Option Severity :=
  all.find? fun severity => severity.word == s.toLower

end Severity

/-- The least severity of events that are written; nothing if none is. -/
abbrev Threshold := Option Severity

/-- Whether events of a severity are written. -/
def Threshold.passes (t : Threshold) (severity : Severity) : Bool :=
  t.any fun least => least.rank ≤ severity.rank

inductive LogFormat where
  | json
  | pretty
deriving DecidableEq, Repr, Inhabited

def LogFormat.ofWord? (s : String) : Option LogFormat :=
  match s.toLower with
  | "json" => some .json
  | "pretty" => some .pretty
  | _ => none

/-- When a new log file is begun. -/
inductive Rotation where
  | daily
  | hourly
  | never
deriving DecidableEq, Repr, Inhabited

namespace Rotation

def ofWord? (s : String) : Option Rotation :=
  match s.toLower with
  | "daily" => some .daily
  | "hourly" => some .hourly
  | "never" => some .never
  | _ => none

/-- The start of the names of all log files. -/
def stem : String := "smali2java.log"

/-- The name of the log file at a time. -/
def fileName (now : Instant) : Rotation → String
  | .never => stem
  | .daily => stem ++ "." ++ now.renderDate
  | .hourly => stem ++ "." ++ now.renderDate ++ "-" ++ Instant.padded 2 now.hour

end Rotation

/-- Something worth a line in a log. -/
structure LogEvent where
  severity : Severity
  message : String
  /-- Further values by name. -/
  fields : List (String × Json) := []
deriving Repr, Inhabited

/-- The values of an event, its message among them. -/
def LogEvent.fieldsJson (e : LogEvent) : Json :=
  .record (("message", .string e.message) :: e.fields)

/-- A logger that is set up. -/
structure Logger where
  threshold : Threshold
  format : LogFormat
  /-- The name of the log file, if there is one. -/
  file : Option String
deriving DecidableEq, Repr, Inhabited

/-- Why logging cannot be set up. -/
inductive LogFault where
  | level (given : String)
  | format (given : String)
  | rotation (given : String)
  /-- It was set up before. -/
  | installed
deriving DecidableEq, Repr, Inhabited

def LogFault.message : LogFault → String
  | .level given => "Invalid log level: " ++ given
  | .format given => "Invalid log format: " ++ given
  | .rotation given => "Invalid log rotation: " ++ given
  | .installed => "Failed to install tracing subscriber"

/-- The threshold that a variable of the environment asks for: a word or a digit, or else
something that no event of this program meets. An empty text asks for nothing. -/
def Threshold.ofVariable (usual : Threshold) (text : String) : Threshold :=
  match text with
  | "" => usual
  | "5" => some .trace
  | "4" => some .debug
  | "3" => some .info
  | "2" => some .warn
  | "1" => some .error
  | word => Severity.ofWord? word

/-- All that was logged, and the logger if there is one. -/
structure LogBook where
  logger : Option Logger := none
  /-- The events on the screen. -/
  screen : List LogEvent := []
  /-- The events in every log file. -/
  files : Table String (List LogEvent) := {}
deriving Repr, Inhabited

namespace LogBook

def inFile (b : LogBook) (name : String) : List LogEvent :=
  (b.files.get? name).getD []

/-- The book with a log file, which is empty if it is new. -/
def openFile (b : LogBook) (name : String) : LogBook :=
  { b with files := b.files.put name (b.inFile name) }

/-- Whether events of a severity are written. -/
def passes (b : LogBook) (severity : Severity) : Bool :=
  b.logger.any (·.threshold.passes severity)

/-- Write an event, if the logger lets it pass. -/
def write (b : LogBook) (e : LogEvent) : LogBook :=
  if b.passes e.severity then
    let b := { b with screen := b.screen ++ [e] }
    match b.logger.bind Logger.file with
    | none => b
    | some name => { b with files := b.files.put name (b.inFile name ++ [e]) }
  else b

/-- The event that tells of a logger. -/
def installedEvent (s : LoggingSettings) : LogEvent where
  severity := .debug
  message := "logger initialized"
  fields :=
    [("level", .string s.level), ("format", .string s.format),
     ("file_output", .bool s.directory.isSome)]

/-- Set logging up, for the present time. A variable of the environment replaces the level of the
settings. -/
def install (b : LogBook) (s : LoggingSettings) (override? : Option String) (now : Instant) :
    Except LogFault Unit × LogBook :=
  match Severity.ofWord? s.level with
  | none => (.error (.level s.level), b)
  | some severity =>
    match LogFormat.ofWord? s.format with
    | none => (.error (.format s.format), b)
    | some format =>
      let threshold := (override?.map (Threshold.ofVariable (some severity))).getD (some severity)
      match s.directory, Rotation.ofWord? s.rotation with
      -- The rotation matters only if there is a directory for files.
      | some _, none => (.error (.rotation s.rotation), b)
      | directory, rotation =>
        let file := directory.bind fun _ => rotation.map (·.fileName now)
        -- The file is begun even where a logger is there already.
        let b := match file with
          | some name => b.openFile name
          | none => b
        match b.logger with
        | some _ => (.error .installed, b)
        | none =>
          (.ok (), { b with logger := some { threshold, format, file } }.write (installedEvent s))

end LogBook

end SmaliView
