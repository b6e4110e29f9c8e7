import SmaliView.Json.Forms
import SmaliView.Json.Reader
import SmaliView.Tools.Basic
import SmaliView.Update
import SmaliView.Word

/-!
# Reading the domain's values from JSON

The readers of the forms that `Json.Forms` writes. They take objects with their fields in any
order, and arrays with the values in the order in which the fields are declared.
-/

namespace SmaliView

open Json (Reader)
open Json.Reader (Member group string orNull natBelow)

/-- The values of an enumeration by their words. -/
def wordTable {α : Type} (word : α → String) (all : List α) : List (String × α) :=
  all.map fun a => (word a, a)

def Path.reader : Reader Path := Path.mk <$> string

def Stage.reader : Reader Stage := Reader.oneOf (wordTable Stage.word Stage.all)

def Provenance.reader : Reader Provenance :=
  Reader.oneOf (wordTable Provenance.word Provenance.all)

def TaskState.reader : Reader TaskState := Reader.oneOf (wordTable TaskState.word TaskState.all)

def ToolStatus.reader : Reader ToolStatus := Reader.oneOf (wordTable ToolStatus.word ToolStatus.all)

/-- A class. Any text is taken as its name. -/
def ClassName.reader : Reader ClassName :=
  group
    [{ key := "binary_name", update := fun c => do return { c with binary := ← string } }]
    ⟨""⟩

def ContentHash.reader : Reader ContentHash := do
  let bytes ← Reader.tuple 16 (natBelow 256)
  return ContentHash.ofBytes (bytes.map Nat.toUInt8)

/-- The time after the epoch that two parts give, if it is not too far away. -/
def Instant.ofEpoch? (seconds nanos : Nat) : Option Instant :=
  let t := Instant.ofParts seconds nanos
  if t.seconds < wordSize 63 then some t else none

/-- An instant that is not before the epoch, as its parts. -/
def Instant.partsReader : Json.Reader Instant := do
  let (seconds, nanos) ← group
    [{ key := "secs_since_epoch", update := fun p => do return (← natBelow (wordSize 64), p.2) },
     { key := "nanos_since_epoch", update := fun p => do return (p.1, ← natBelow (wordSize 32)) }]
    (0, 0) true
  match Instant.ofEpoch? seconds nanos with
  | some t => return t
  | none => throw .unfit

def Instant.reader (cal : Calendar) : Json.Reader Instant := do
  match Instant.parse? cal (← string) with
  | some t => return t
  | none => throw .unfit

/-- An origin. The time may be missing from an object. -/
def Origin.reader (cal : Calendar) : Reader Origin :=
  group
    [{ key := "path", update := fun o => do return { o with path := ← Path.reader } },
     { key := "modified", required := false
       update := fun o => do return { o with modified := ← orNull (Instant.reader cal) } },
     { key := "len", update := fun o => do return { o with length := ← natBelow (wordSize 64) } }]
    ⟨⟨""⟩, none, 0⟩

/-- Java source. The origin may be missing from an object. -/
def JavaSource.reader (cal : Calendar) : Reader JavaSource :=
  group
    [{ key := "text", update := fun s => do return { s with text := ← string } },
     { key := "provenance", update := fun s => do
        return { s with provenance := ← Provenance.reader } },
     { key := "origin", required := false
       update := fun s => do return { s with origin := ← orNull (Origin.reader cal) } }]
    ⟨"", .realtime, none⟩

/-! ## Snapshots

The kind of a snapshot may stand behind its other fields. So the text is read twice: to find the
kind, and then for the fields of that kind. -/

namespace Snapshot

inductive Kind where
  | inMemory
  | onDisk
deriving DecidableEq, Repr

def kinds : List (String × Kind) := [("in_memory", .inMemory), ("on_disk", .onDisk)]

def kindReader : Reader Kind := do
  match kinds.lookup (← string) with
  | some kind => return kind
  | none => throw .unfit

/-- Go through the fields of an object for the kind. -/
def kindInFields : Nat → Bool → Option Kind → Reader Kind
  | 0, _, _ => throw .malformed
  | n + 1, first, kind => do
    if ← Reader.moreFields first then
      let key ← string
      if key == "kind" then
        if kind.isSome then throw .unfit
        Reader.colon
        let k ← kindReader
        kindInFields n false (some k)
      else
        Reader.colon
        Reader.examine (Reader.depthLimit - 1)
        kindInFields n false kind
    else
      match kind with
      | some k => return k
      | none => throw .unfit

/-- Go past the rest of an array. -/
def examineItems : Nat → Reader Unit
  | 0 => throw .malformed
  | n + 1 => do
    if ← Reader.moreItems false then
      Reader.examine (Reader.depthLimit - 1)
      examineItems n

/-- The kind of the snapshot that comes next. All of it is looked at. -/
def findKind : Reader Kind := do
  let fuel := (← get).length + 1
  match ← Reader.peekToken with
  | some '\x7b' =>
    Reader.skip
    let kind ← kindInFields fuel true none
    Reader.skip
    return kind
  | some '[' =>
    Reader.skip
    unless ← Reader.moreItems true do throw .unfit
    let kind ← kindReader
    examineItems fuel
    Reader.endItems
    return kind
  | _ => Reader.mistaken

/-- The word for the kind as a field, which says nothing more. -/
def kindField {ρ : Type} : Member ρ :=
  { key := "kind", update := fun r => do
      let _ ← kindReader
      return r }

def fieldsReader : Kind → Reader Snapshot
  | .inMemory => do
    let (hash, length) ← group
      [kindField,
       { key := "hash", update := fun p => do return (← ContentHash.reader, p.2) },
       { key := "len", update := fun p => do return (p.1, ← natBelow (wordSize 64)) }]
      (⟨0, 0⟩, 0)
    return .text hash length
  | .onDisk => do
    let (modified, length) ← group
      [kindField,
       { key := "modified", update := fun p => do return (← Instant.partsReader, p.2) },
       { key := "len", update := fun p => do return (p.1, ← natBelow (wordSize 64)) }]
      (⟨0, 0⟩, 0)
    return .disk modified length

def reader : Reader Snapshot := do
  let text ← get
  let kind ← findKind
  match StateT.run (fieldsReader kind) text with
  | .ok (s, _) => return s
  | .error _ => throw .unfit

end Snapshot

/-! ## Settings -/

/-- A setting: it may always be left out. -/
def settingField {ρ α : Type} (key : String) (read : Reader α) (set : ρ → α → ρ) : Member ρ :=
  { key, update := fun r => set r <$> read, required := false, requiredItem := false }

def CacheSettings.fields : List (Member CacheSettings) :=
  [settingField "max_entries" (natBelow (wordSize 64)) fun r v => { r with maxEntries := v }]

def CacheSettings.reader : Reader CacheSettings := group CacheSettings.fields .missing

def LayoutSettings.fields : List (Member LayoutSettings) :=
  [settingField "max_ancestor_depth" (natBelow (wordSize 64))
    fun r v => { r with maxAncestorDepth := v }]

def LayoutSettings.reader : Reader LayoutSettings := group LayoutSettings.fields .missing

def AssemblerSettings.fields : List (Member AssemblerSettings) :=
  [settingField "binary_path" string fun r v => { r with binaryPath := v },
   settingField "jar" (orNull Path.reader) fun r v => { r with jar := v },
   settingField "java_path" string fun r v => { r with javaPath := v },
   settingField "api_level" (orNull (natBelow (wordSize 32))) fun r v => { r with apiLevel := v },
   settingField "extra_flags" (Reader.array string) fun r v => { r with extraFlags := v }]

def AssemblerSettings.reader : Reader AssemblerSettings := group AssemblerSettings.fields .missing

def DecompilerSettings.fields : List (Member DecompilerSettings) :=
  [settingField "binary_path" string fun r v => { r with binaryPath := v },
   settingField "single_class" Reader.bool fun r v => { r with singleClass := v },
   settingField "threads" (orNull (natBelow (wordSize 32))) fun r v => { r with threads := v },
   settingField "extra_flags" (Reader.array string) fun r v => { r with extraFlags := v }]

def DecompilerSettings.reader : Reader DecompilerSettings :=
  group DecompilerSettings.fields .missing

def ToolSettings.fields : List (Member ToolSettings) :=
  [settingField "assembler" AssemblerSettings.reader fun r v => { r with assembler := v },
   settingField "decompiler" DecompilerSettings.reader fun r v => { r with decompiler := v }]

def ToolSettings.reader : Reader ToolSettings := group ToolSettings.fields .missing

def LoggingSettings.fields : List (Member LoggingSettings) :=
  [settingField "level" string fun r v => { r with level := v },
   settingField "format" string fun r v => { r with format := v },
   settingField "log_dir" (orNull Path.reader) fun r v => { r with directory := v },
   settingField "rotation" string fun r v => { r with rotation := v }]

def LoggingSettings.reader : Reader LoggingSettings := group LoggingSettings.fields .missing

def Settings.fields : List (Member Settings) :=
  [settingField "max_workers" (natBelow (wordSize 64)) fun r v => { r with maxWorkers := v },
   settingField "work_dir" (orNull Path.reader) fun r v => { r with workDirectory := v },
   settingField "cache" CacheSettings.reader fun r v => { r with cache := v },
   settingField "layout" LayoutSettings.reader fun r v => { r with layout := v },
   settingField "tools" ToolSettings.reader fun r v => { r with tools := v },
   settingField "logging" LoggingSettings.reader fun r v => { r with logging := v }]

def Settings.reader : Reader Settings := group Settings.fields .missing

end SmaliView
