import SmaliView.Json.Value
import SmaliView.Layout
import SmaliView.Settings.Basic
import SmaliView.Snapshot
import SmaliView.Outcome

/-!
# The JSON forms of the domain's values

The form in which values are handed to other programs. A snapshot of a file that was changed before
the epoch has none.
-/

namespace SmaliView

/-- A path is its text. -/
def Path.toJson (p : Path) : Json := .string p.text

/-- A class is a record of its binary name. -/
def ClassName.toJson (c : ClassName) : Json :=
  .record [("binary_name", .string c.binary)]

/-- A hash is the list of its bytes. -/
def ContentHash.toJson (h : ContentHash) : Json :=
  .array (h.toBytes.map fun b => .nat b.toNat)

/-- The parts of an instant that is not before the epoch. -/
def Instant.partsJson? (t : Instant) : Option Json :=
  if t.seconds < 0 then none
  else some (.record [("secs_since_epoch", .number t.seconds), ("nanos_since_epoch", .nat t.nanos)])

def Instant.beforeEpoch : String := "SystemTime must be later than UNIX_EPOCH"

/-- A snapshot is a record that names its kind. -/
def Snapshot.toJson? : Snapshot → Option Json
  | .text hash length =>
    some (.record [("kind", .string "in_memory"), ("hash", hash.toJson), ("len", .nat length)])
  | .disk modified length =>
    modified.partsJson?.map fun parts =>
      .record [("kind", .string "on_disk"), ("modified", parts), ("len", .nat length)]

/-- An origin; its time ends in the letter of UTC. -/
def Origin.toJson (o : Origin) : Json :=
  .record
    [("path", o.path.toJson),
     ("modified", .optional (fun t => .string t.renderZulu) o.modified),
     ("len", .nat o.length)]

def JavaSource.toJson (s : JavaSource) : Json :=
  .record
    [("text", .string s.text),
     ("provenance", .string s.provenance.word),
     ("origin", .optional Origin.toJson s.origin)]

def BytecodeRoot.toJson (r : BytecodeRoot) : Json :=
  .record [("dir", r.dir.toJson), ("dex_index", .optional .string r.index)]

def Probe.toJson (p : Probe) : Json :=
  .record
    [("file", p.file.toJson),
     ("bytecode_root", .optional BytecodeRoot.toJson p.root),
     ("path_class", .optional ClassName.toJson p.pathClass),
     ("class", .optional ClassName.toJson p.className),
     ("anchor", .optional Path.toJson p.anchor)]

def CacheSettings.toJson (s : CacheSettings) : Json :=
  .record [("max_entries", .nat s.maxEntries)]

def LayoutSettings.toJson (s : LayoutSettings) : Json :=
  .record [("max_ancestor_depth", .nat s.maxAncestorDepth)]

def AssemblerSettings.toJson (s : AssemblerSettings) : Json :=
  .record
    [("binary_path", .string s.binaryPath),
     ("jar", .optional Path.toJson s.jar),
     ("java_path", .string s.javaPath),
     ("api_level", .optional .nat s.apiLevel),
     ("extra_flags", .strings s.extraFlags)]

def DecompilerSettings.toJson (s : DecompilerSettings) : Json :=
  .record
    [("binary_path", .string s.binaryPath),
     ("single_class", .bool s.singleClass),
     ("threads", .optional .nat s.threads),
     ("extra_flags", .strings s.extraFlags)]

def ToolSettings.toJson (s : ToolSettings) : Json :=
  .record [("assembler", s.assembler.toJson), ("decompiler", s.decompiler.toJson)]

def LoggingSettings.toJson (s : LoggingSettings) : Json :=
  .record
    [("level", .string s.level),
     ("format", .string s.format),
     ("log_dir", .optional Path.toJson s.directory),
     ("rotation", .string s.rotation)]

def Settings.toJson (s : Settings) : Json :=
  .record
    [("max_workers", .nat s.maxWorkers),
     ("work_dir", .optional Path.toJson s.workDirectory),
     ("cache", s.cache.toJson),
     ("layout", s.layout.toJson),
     ("tools", s.tools.toJson),
     ("logging", s.logging.toJson)]

end SmaliView
