import SmaliView.FileTree
import SmaliView.Settings.Check
import SmaliView.Settings.Decode
import SmaliView.Settings.Environment
import SmaliView.Text.Quoted
import SmaliView.Yaml.Read

/-!
# Loading settings

Settings come in layers, each laid over the ones before it: the defaults, files, and the
environment. `Settings.loadFile` reads one given file and nothing else; `Settings.load` reads the
files of the project and the environment. What was read is checked before it is given out.
-/

namespace SmaliView

/-- Where a layer of settings comes from. -/
inductive Source where
  /-- A file, by the path under which it is told of. -/
  | file (path : Path)
  | environment
deriving DecidableEq, Repr, Inhabited

structure Layer where
  source : Source
  document : Document
deriving Repr, Inhabited

/-- Why layers do not give settings. -/
inductive Refusal where
  /-- A file does not hold a dictionary. -/
  | malformed (source : Source)
  /-- A value does not fit. -/
  | mismatch (m : Mismatch) (source : Option Source)
deriving Repr, Inhabited

inductive LoadFault where
  /-- They could not be read; what was tried, and why not. -/
  | refused (attempt : String) (why : Refusal)
  | invalid (fault : SettingsFault)
deriving Repr, Inhabited

/-! ## Faults as text -/

/-- What was found, in words. -/
def Found.describe : Found → String
  | .unit => "unit"
  | .bool b => "bool " ++ toString b
  | .unsigned n => "unsigned int `" ++ toString n ++ "`"
  | .signed n => "signed int `" ++ toString n ++ "`"
  | .float x => "float `" ++ x.render ++ "`"
  | .text s => "string " ++ Text.quoted s
  | .sequence => "sequence"
  | .map => "map"
  | .wide n => "integer `" ++ toString n ++ "` as " ++ (if n < 0 then "i128" else "u128")

/-- What is wrong with a value. -/
def Mismatch.describe (m : Mismatch) : String :=
  let kind := match m.kind with
    | .type => "type"
    | .value => "value"
  "invalid " ++ kind ++ ": found " ++ m.found.describe ++ ", expected " ++ m.expected

namespace Source

/-- The prefix of the variables that are settings. -/
def environmentPrefix : String := "SMALI2JAVA_"

/-- The source in an error. -/
def text : Source → String
  | .file p => p.text ++ " YAML file"
  | .environment => "`" ++ environmentPrefix ++ "` environment variable(s)"

/-- The keys that lead to a value, as the source writes them. -/
def keyText (keys : List String) : Source → String
  | .file _ => ".".intercalate ("default" :: keys)
  | .environment => ".".intercalate (keys.map String.toUpper)

end Source

/-- Why settings were refused. -/
def Refusal.text : Refusal → String
  | .malformed source => "malformed document in " ++ source.text
  | .mismatch m none => m.describe
  | .mismatch m (some source) =>
    let place := if m.keys.isEmpty then "" else " for key " ++ Text.quoted (source.keyText m.keys)
    m.describe ++ place ++ " in " ++ source.text

namespace LoadFault

def message : LoadFault → String
  | .refused attempt _ => attempt
  | .invalid fault => fault.message

/-- What lies behind it. -/
def causes : LoadFault → List String
  | .refused _ why => [why.text]
  | .invalid _ => []

end LoadFault

namespace Document

/-- The value that keys lead to. -/
def below? : List String → Document → Option Document
  | [], d => some d
  | key :: keys, .dict fields => (field? fields key).bind (below? keys)
  | key :: keys, .list items => (key.toNat?.bind fun n => items[n]?).bind (below? keys)
  | _ :: _, _ => none

end Document

namespace Settings

/-! ## Finding files -/

/-- The directories in which a file of settings is looked for: the current one and those above it.
-/
def searched (cwd : Location) : List Location :=
  (List.range (cwd.length + 1)).map fun n => cwd.take (cwd.length - n)

def findFile? (t : FileTree) (p : Path) : Option Path :=
  let candidates :=
    if p.rooted then [p] else (searched t.cwd).map fun dir => FileTree.pathOf dir / p
  candidates.find? t.isFile

/-- The number of components at the start that two paths share. -/
def sharedLength : List Component → List Component → Nat
  | a :: as, b :: bs => if a = b then sharedLength as bs + 1 else 0
  | _, _ => 0

/-- The components that lead from a directory to a path. -/
def route (base target : List Component) : List Component :=
  let n := sharedLength base target
  List.replicate (base.length - n) .up ++ target.drop n

/-- The path under which a file is told of: from the current directory if that is shorter. -/
def shown (t : FileTree) (p : Path) : Path :=
  let relative := route (FileTree.pathOf t.cwd).components p.components
  if relative.length < p.components.length then
    Path.ofNames (relative.map Component.text)
  else p

/-! ## Reading layers -/

/-- The layer that a file holds. A file that is not there holds nothing. -/
def fileLayer (t : FileTree) (p : Path) : Except Refusal (List Layer) :=
  match findFile? t p with
  -- A missing file is no error, not even for `loadFile`.
  | none => .ok []
  | some found =>
    let source := Source.file (shown t found)
    match (t.read found).toOption.bind Text.decode? with
    | none => .error (.malformed source)
    | some text =>
      match Yaml.read text.toList with
      | none => .error (.malformed source)
      | some document => .ok [⟨source, document⟩]

/-- The source of the value that keys lead to: the last layer that has one. -/
def sourceOf? (layers : List Layer) (keys : List String) : Option Source :=
  (layers.reverse.find? fun layer => (layer.document.below? keys).isSome).map Layer.source

/-- The settings that layers over the defaults give. -/
def ofLayers (layers : List Layer) : Except Refusal Settings :=
  let document := layers.foldl (fun d layer => d.merge layer.document) ({} : Settings).document
  -- An error names the layer that the value came from, not the one that was read last.
  (decode document).mapError fun m => .mismatch m (sourceOf? layers m.keys)

/-- Checked settings, or why there are none. -/
def finish (attempt : String) (r : Except Refusal Settings) : Except LoadFault Settings := do
  let s ← r.mapError (.refused attempt)
  s.check.mapError .invalid

/-- The settings of one file. -/
def loadFile (t : FileTree) (p : Path) : Except LoadFault Settings :=
  finish ("Failed to load config from " ++ p.text) do
    ofLayers (← fileLayer t p)

/-- The files of a project, the later one over the earlier one. -/
def projectFiles : List Path := [⟨".smali2java/config.yaml"⟩, ⟨".smali2java/local.yaml"⟩]

/-- The settings of the project and the environment. -/
def load (t : FileTree) (vars : Environment.Variables) : Except LoadFault Settings :=
  finish "Failed to extract configuration from figment" do
    let layers ← projectFiles.mapM (fileLayer t)
    let overrides := Environment.settings Source.environmentPrefix vars
    ofLayers (layers.flatten ++ [⟨.environment, overrides⟩])

end Settings

end SmaliView
