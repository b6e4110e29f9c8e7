import SmaliView.Settings.Basic

/-!
# Checking settings

Settings that were read are checked before they are used. `Settings.check` reports the first setting
that is out of bounds, in a fixed order.
-/

namespace SmaliView

inductive SettingsFault where
  | maxWorkers (n : Nat)
  | cacheEntries (n : Nat)
  | ancestorDepth (n : Nat)
  | logLevel (level : String)
  | logFormat (format : String)
  | logRotation (rotation : String)
  /-- The launcher of a tool is blank. -/
  | blankTool (key : String)
deriving DecidableEq, Repr, Inhabited

namespace SettingsFault

def message : SettingsFault → String
  | .maxWorkers n => "Invalid max_workers: " ++ toString n ++ ". Must be between 1 and 16"
  | .cacheEntries n => "Invalid cache.max_entries: " ++ toString n ++ ". Must be at least 1"
  | .ancestorDepth n =>
    "Invalid layout.max_ancestor_depth: " ++ toString n ++ ". Must be between 1 and 16"
  | .logLevel level =>
    "Invalid log level: " ++ level ++ ". Must be one of: trace, debug, info, warn, error"
  | .logFormat format => "Invalid log format: " ++ format ++ ". Must be one of: json, pretty"
  | .logRotation rotation =>
    "Invalid log rotation: " ++ rotation ++ ". Must be one of: daily, hourly, never"
  | .blankTool key => "Tool path cannot be empty: " ++ key

instance : ToString SettingsFault := ⟨message⟩

end SettingsFault

namespace Settings

/-- The greatest number of conversions at once. -/
def workerLimit : Nat := 16

/-- The greatest number of searched directories. -/
def depthLimit : Nat := 16

def isBlankText (s : String) : Bool :=
  s.toList.all Text.isBlank

/-- The launcher that the assembler needs, if it is blank. -/
def assemblerFault? (a : AssemblerSettings) : Option SettingsFault :=
  match a.jar with
  | some _ => if isBlankText a.javaPath then some (.blankTool "tools.assembler.java_path") else none
  | none =>
    if isBlankText a.binaryPath then some (.blankTool "tools.assembler.binary_path") else none

def fault? (s : Settings) : Option SettingsFault :=
  if s.maxWorkers = 0 || workerLimit < s.maxWorkers then some (.maxWorkers s.maxWorkers)
  else if s.cache.maxEntries = 0 then some (.cacheEntries s.cache.maxEntries)
  else if s.layout.maxAncestorDepth = 0 || depthLimit < s.layout.maxAncestorDepth then
    some (.ancestorDepth s.layout.maxAncestorDepth)
  else if s.logging.level ∉ ["trace", "debug", "info", "warn", "error"] then
    some (.logLevel s.logging.level)
  else if s.logging.format ∉ ["json", "pretty"] then some (.logFormat s.logging.format)
  else if s.logging.rotation ∉ ["daily", "hourly", "never"] then
    some (.logRotation s.logging.rotation)
  -- Only the launcher that is going to be run has to have a name.
  else assemblerFault? s.tools.assembler <|>
    if isBlankText s.tools.decompiler.binaryPath then
      some (.blankTool "tools.decompiler.binary_path")
    else none

def check (s : Settings) : Except SettingsFault Settings :=
  match s.fault? with
  | some fault => .error fault
  | none => .ok s

end Settings

end SmaliView
