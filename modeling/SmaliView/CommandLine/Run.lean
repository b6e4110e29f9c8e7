import SmaliView.CommandLine.Arguments
import SmaliView.Logging
import SmaliView.Report.Convert
import SmaliView.Report.Locate
import SmaliView.Report.Tools
import SmaliView.Session
import SmaliView.Settings.Load

/-!
# Running a command line

A command runs in *surroundings*: files, variables of the environment, and the directories in
which programs are looked for. It ends with a code and with what it writes to its two outputs. A
fault is told with all that lies behind it, in one of two forms; a command that breaks off gives no
report at all.
-/

namespace SmaliView

/-- What a command runs in. -/
structure Surroundings where
  tree : FileTree
  environment : Environment.Variables := []
  /-- The directories in which programs are looked for. -/
  search : List Path := []
  /-- Where scratch directories are made if the settings name no other place. -/
  temporary : Path := ⟨"/tmp"⟩
  /-- How times are turned into dates. -/
  calendar : Calendar := .gregorian
deriving Inhabited

structure Ending where
  code : Nat
  stdout : String := ""
  stderr : String := ""
deriving DecidableEq, Repr, Inhabited

structure CommandFault where
  message : String
  causes : List String := []
deriving DecidableEq, Repr, Inhabited

namespace CommandFault

def toText (f : CommandFault) : String :=
  "Error: " ++ f.message ++ "\n" ++ String.join (f.causes.map fun c => "  caused by: " ++ c ++ "\n")

def toJson (f : CommandFault) : Json :=
  .record
    [("success", .bool false), ("error", .string f.message), ("causes", .strings f.causes)]

/-- The end of a command that failed. A fault for programs goes where they look for the report. -/
def ending (json : Bool) (f : CommandFault) : Ending :=
  if json then { code := 1, stdout := f.toJson.render ++ "\n" }
  else { code := 1, stderr := f.toText }

end CommandFault

/-- Why a command gives no report. -/
inductive CommandFailure where
  | fault (f : CommandFault)
  /-- It has broken off. -/
  | panic (message : String)
deriving DecidableEq, Repr, Inhabited

/-- The end of a command that gives no report. What breaks off writes its message whatever form the
report was to have. -/
def CommandFailure.ending (json : Bool) : CommandFailure → Ending
  | .fault f => f.ending json
  | .panic message => { code := 101, stderr := message ++ "\n" }

/-- A report in both its forms. -/
structure Report where
  text : String
  json : Json
deriving Repr, Inhabited

/-- The end of a command that gives a report. -/
def Report.ending (json : Bool) (r : Report) : Ending :=
  { code := 0, stdout := (if json then r.json.render else r.text) ++ "\n" }

/-- The pipeline that settings describe. -/
def Settings.pipeline (s : Settings) (tools : Toolbox) (calendar : Calendar) (temporary : Path) :
    Pipeline where
  assembler := tools.assembler.label
  decompiler := tools.decompiler.label
  layout := Layout.ofDepth s.layout.maxAncestorDepth
  calendar
  workDirectory := s.workDirectory
  temporary

namespace CommandLine

/-! ## Commands -/

/-- The answer to a request among the updates. -/
def answer? (t : Ticket) (updates : List Update) : Option Outcome :=
  updates.findSome? fun u => match u with
    | .finished _ _ outcome => if u.answers t then some outcome else none
    | .loading .. | .dismissed _ => none

/-- The text of a file for editors. -/
def editorText (w : Surroundings) (file : Path) : Except CommandFault String :=
  match w.tree.read file with
  | .ok content => .ok (Text.decodeLossy content)
  | .error e => .error ⟨"Failed to read " ++ file.text, [e.message]⟩

def convert (w : Surroundings) (s : Settings) (journal : Journal) (file : Path) (fromDisk : Bool) :
    Except CommandFailure Report := do
  -- A file that cannot be read fails here, before anything is scheduled.
  let text ← if fromDisk then pure none else some <$> (editorText w file).mapError .fault
  let tools := s.tools.toolbox w.search
  let workshop : Workshop := { tools, pipeline := s.pipeline tools w.calendar w.temporary }
  let start : Session :=
    { scheduler := Scheduler.new s.maxWorkers journal, bench := { tree := w.tree } }
  let (session, called) := start.requestView file text
  let ticket ← called.mapError .panic
  match answer? ticket (session.run workshop).scheduler.updates with
  | some outcome =>
    let r : ConvertReport := ⟨file, outcome⟩
    return ⟨r.toText, r.toJson⟩
  | none => throw (.fault ⟨"conversion service stopped before delivering a result", []⟩)

def locate (w : Surroundings) (s : Settings) (file : Path) : Report :=
  let text := (w.tree.read file).toOption.map Text.decodeLossy
  let r := LocateReport.of (Layout.ofDepth s.layout.maxAncestorDepth) w.tree file text
  ⟨r.toText, r.toJson⟩

def tools (w : Surroundings) (s : Settings) : Report :=
  let (reports, _) := (ToolReport.all (s.tools.toolbox w.search)).run { tree := w.tree }
  ⟨ToolReport.toText reports, ToolReport.toJson reports⟩

def execute (w : Surroundings) (s : Settings) (journal : Journal) :
    Command → Except CommandFailure Report
  | .convert file fromDisk => convert w s journal file fromDisk
  | .locate file => .ok (locate w s file)
  | .tools => .ok (tools w s)

/-! ## Whole command lines -/

/-- The settings for a command. -/
def settings (w : Surroundings) (options : CommandOptions) : Except LoadFault Settings :=
  match options.config with
  | some file => Settings.loadFile w.tree file
  | none => Settings.load w.tree w.environment

/-- Set logging up. That jobs are started is told in events that merely inform. -/
def startLogging (w : Surroundings) (s : Settings) : Except CommandFault Journal :=
  let override? := w.environment.lookup "RUST_LOG"
  -- The process has just begun, so nothing was logged before.
  match ({} : LogBook).install s.logging override? w.tree.now with
  | (.ok (), book) => .ok ⟨book.passes .info, w.calendar⟩
  | (.error f, _) => .error ⟨f.message, []⟩

def versionText : String := "smali2java 0.1.0\n"

def usageText : String :=
  "Usage: smali2java [OPTIONS] <COMMAND>\n"

def helpText : String :=
  "smali2java - on-demand Java view of smali sources\n\n" ++ usageText ++
  "\nCommands:\n" ++
  "  convert  Convert a smali file to Java\n" ++
  "  locate   Show where a smali file's class, containers and sources are looked up\n" ++
  "  tools    Report whether the assembler and decompiler are installed\n" ++
  "  help     Print this message or the help of the given subcommand(s)\n" ++
  "\nOptions:\n" ++
  "  -j, --json             Output in JSON format\n" ++
  "  -c, --config <CONFIG>  Load configuration from this file instead of .smali2java/\n" ++
  "  -h, --help             Print help\n" ++
  "  -V, --version          Print version\n"

def run (w : Surroundings) (args : List String) : Ending :=
  match Invocation.ofArguments args with
  | .version => { code := 0, stdout := versionText }
  | .help => { code := 0, stdout := helpText }
  | .misuse => { code := 2, stderr := usageText }
  | .run options command =>
    match settings w options with
    | .error f => CommandFault.ending options.json ⟨f.message, f.causes⟩
    | .ok s =>
      let report : Except CommandFailure Report := do
        let journal ← (startLogging w s).mapError .fault
        execute w s journal command
      match report with
      | .ok report => report.ending options.json
      | .error f => f.ending options.json

end CommandLine

end SmaliView
