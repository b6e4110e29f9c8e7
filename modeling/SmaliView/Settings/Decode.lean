import SmaliView.Document
import SmaliView.Settings.Basic
import SmaliView.Word

/-!
# Settings from documents

`Settings.decode` reads settings from a document. A field that is missing gets its default, a field
that is unknown is passed over, and the first field in alphabetical order that does not fit is
reported, with the keys that lead to it. `Settings.document` writes settings as a document, every
field of it.
-/

namespace SmaliView

/-- What was found in a document where something else was expected. -/
inductive Found where
  | unit
  | bool (b : Bool)
  | unsigned (n : Nat)
  | signed (n : Int)
  | float (x : Double)
  | text (s : String)
  | sequence
  | map
  /-- An integer of more than 64 bits. -/
  | wide (n : Int)
deriving DecidableEq, Repr, Inhabited

inductive MismatchKind where
  /-- It is of another kind. -/
  | type
  /-- It is out of range. -/
  | value
deriving DecidableEq, Repr, Inhabited

/-- A value that does not fit where it stands. -/
structure Mismatch where
  kind : MismatchKind
  found : Found
  expected : String
  /-- The keys that lead to the value. -/
  keys : List String := []
deriving DecidableEq, Repr, Inhabited

/-- The mismatch seen from one level further out. -/
def Mismatch.below (key : String) (m : Mismatch) : Mismatch :=
  { m with keys := key :: m.keys }

namespace Document

/-- The kind of an integer: 64 bits without sign if they suffice, with sign if those do. -/
def foundInt (n : Int) : Found :=
  if 0 ≤ n && n < wordSize 64 then .unsigned n.toNat
  else if n < 0 && -(wordSize 63 : Int) ≤ n then .signed n
  else .wide n

/-- What a value is, for an error. -/
def found : Document → Found
  | .null => .unit
  | .bool b => .bool b
  | .int n => foundInt n
  | .float x => .float x
  | .text s => .text s
  | .list _ => .sequence
  | .dict _ => .map

/-- A reader of one value. -/
abbrev Decoder (α : Type) := Document → Except Mismatch α

/-- The error for a value of another kind. -/
def mistyped {α : Type} (d : Document) (expected : String) : Except Mismatch α :=
  .error ⟨.type, d.found, expected, []⟩

/-- A natural number below a bound. -/
def natBelow (bound : Nat) (expected : String) : Decoder Nat
  | .int n =>
    match foundInt n with
    | .unsigned m => if m < bound then .ok m else .error ⟨.value, .unsigned m, expected, []⟩
    | .signed m => .error ⟨.value, .signed m, expected, []⟩
    -- What has no place in 64 bits is of another kind, not out of range.
    | other => .error ⟨.type, other, expected, []⟩
  | d => mistyped d expected

def asBool : Decoder Bool
  | .bool b => .ok b
  | d => mistyped d "a boolean"

def asText : Decoder String
  | .text s => .ok s
  | d => mistyped d "a string"

def asPath : Decoder Path
  | .text s => .ok ⟨s⟩
  | d => mistyped d "path string"

/-- A value, or null for none. -/
def asOptional {α : Type} (decode : Decoder α) : Decoder (Option α)
  | .null => .ok none
  | d => some <$> decode d

/-- Name the place of an error. -/
def located {α : Type} (key : String) (r : Except Mismatch α) : Except Mismatch α :=
  r.mapError (·.below key)

/-- The items of a list, the first of which has a given number. -/
def items {α : Type} (decode : Decoder α) : Nat → List Document → Except Mismatch (List α)
  | _, [] => .ok []
  | n, d :: rest => do
    let a ← located (toString n) (decode d)
    let as ← items decode (n + 1) rest
    return a :: as

def asList {α : Type} (decode : Decoder α) : Decoder (List α)
  | .list ds => items decode 0 ds
  | d => mistyped d "a sequence"

/-- One setting of a group: its key and how its value changes the group. -/
structure Field (ρ : Type) where
  key : String
  update : Document → ρ → Except Mismatch ρ

/-- A setting that is read by a decoder. -/
def setting {ρ α : Type} (key : String) (decode : Decoder α) (set : ρ → α → ρ) : Field ρ :=
  ⟨key, fun d r => set r <$> decode d⟩

/-- Read the fields of a dictionary one by one; those of unknown name are passed over. -/
def readFields {ρ : Type} (known : List (Field ρ)) : Fields → ρ → Except Mismatch ρ
  | [], r => .ok r
  | (key, d) :: rest, r =>
    match known.find? (·.key == key) with
    | some field => do readFields known rest (← located key (field.update d r))
    | none => readFields known rest r

/-- Read the items of a list as the fields of a group, in the order in which it declares them. -/
def readItems {ρ : Type} : Nat → List (Field ρ) → List Document → ρ → Except Mismatch ρ
  | n, field :: known, d :: rest, r => do
    readItems (n + 1) known rest (← located (toString n) (field.update d r))
  -- A list may end early; what is past the last field is not looked at.
  | _, _, _, r => .ok r

/-- A group of settings: a dictionary, or a list with the values in the order of the fields. -/
def group {ρ : Type} (expected : String) (known : List (Field ρ)) (start : ρ) : Decoder ρ
  | .dict fields => readFields known fields start
  | .list ds => readItems 0 known ds start
  | d => mistyped d expected

end Document

open Document

def CacheSettings.decode : Decoder CacheSettings :=
  group "struct CacheConfig"
    [setting "max_entries" (natBelow (wordSize 64) "u64")
      fun r v => { r with maxEntries := v }] .missing

def LayoutSettings.decode : Decoder LayoutSettings :=
  group "struct LayoutConfig"
    [setting "max_ancestor_depth" (natBelow (wordSize 64) "usize")
      fun r v => { r with maxAncestorDepth := v }] .missing

def AssemblerSettings.decode : Decoder AssemblerSettings :=
  group "struct AssemblerConfig"
    [setting "binary_path" asText fun r v => { r with binaryPath := v },
     setting "jar" (asOptional asPath) fun r v => { r with jar := v },
     setting "java_path" asText fun r v => { r with javaPath := v },
     setting "api_level" (asOptional (natBelow (wordSize 32) "u32"))
      fun r v => { r with apiLevel := v },
     setting "extra_flags" (asList asText) fun r v => { r with extraFlags := v }] .missing

def DecompilerSettings.decode : Decoder DecompilerSettings :=
  group "struct DecompilerConfig"
    [setting "binary_path" asText fun r v => { r with binaryPath := v },
     setting "single_class" asBool fun r v => { r with singleClass := v },
     setting "threads" (asOptional (natBelow (wordSize 32) "u32"))
      fun r v => { r with threads := v },
     setting "extra_flags" (asList asText) fun r v => { r with extraFlags := v }] .missing

def ToolSettings.decode : Decoder ToolSettings :=
  group "struct ToolsConfig"
    [setting "assembler" AssemblerSettings.decode fun r v => { r with assembler := v },
     setting "decompiler" DecompilerSettings.decode fun r v => { r with decompiler := v }] .missing

def LoggingSettings.decode : Decoder LoggingSettings :=
  group "struct LoggingConfig"
    [setting "level" asText fun r v => { r with level := v },
     setting "format" asText fun r v => { r with format := v },
     setting "log_dir" (asOptional asPath) fun r v => { r with directory := v },
     setting "rotation" asText fun r v => { r with rotation := v }] .missing

def Settings.decode : Decoder Settings :=
  group "struct Config"
    [setting "max_workers" (natBelow (wordSize 64) "usize") fun r v => { r with maxWorkers := v },
     setting "work_dir" (asOptional asPath) fun r v => { r with workDirectory := v },
     setting "cache" CacheSettings.decode fun r v => { r with cache := v },
     setting "layout" LayoutSettings.decode fun r v => { r with layout := v },
     setting "tools" ToolSettings.decode fun r v => { r with tools := v },
     setting "logging" LoggingSettings.decode fun r v => { r with logging := v }] .missing

/-! ## Settings as documents -/

namespace Document

/-- A value that may be missing. -/
def ofOption {α : Type} (f : α → Document) : Option α → Document
  | none => .null
  | some a => f a

def ofPath (p : Path) : Document := .text p.text

def ofNat (n : Nat) : Document := .int n

end Document

def CacheSettings.document (s : CacheSettings) : Document :=
  .dict [("max_entries", ofNat s.maxEntries)]

def LayoutSettings.document (s : LayoutSettings) : Document :=
  .dict [("max_ancestor_depth", ofNat s.maxAncestorDepth)]

def AssemblerSettings.document (s : AssemblerSettings) : Document :=
  .dict
    [("api_level", ofOption ofNat s.apiLevel),
     ("binary_path", .text s.binaryPath),
     ("extra_flags", .list (s.extraFlags.map .text)),
     ("jar", ofOption ofPath s.jar),
     ("java_path", .text s.javaPath)]

def DecompilerSettings.document (s : DecompilerSettings) : Document :=
  .dict
    [("binary_path", .text s.binaryPath),
     ("extra_flags", .list (s.extraFlags.map .text)),
     ("single_class", .bool s.singleClass),
     ("threads", ofOption ofNat s.threads)]

def ToolSettings.document (s : ToolSettings) : Document :=
  .dict [("assembler", s.assembler.document), ("decompiler", s.decompiler.document)]

def LoggingSettings.document (s : LoggingSettings) : Document :=
  .dict
    [("format", .text s.format),
     ("level", .text s.level),
     ("log_dir", ofOption ofPath s.directory),
     ("rotation", .text s.rotation)]

def Settings.document (s : Settings) : Document :=
  .dict
    [("cache", s.cache.document),
     ("layout", s.layout.document),
     ("logging", s.logging.document),
     ("max_workers", ofNat s.maxWorkers),
     ("tools", s.tools.document),
     ("work_dir", ofOption ofPath s.workDirectory)]

end SmaliView
