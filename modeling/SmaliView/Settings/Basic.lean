import SmaliView.Path

/-!
# Settings

All that can be set. A group of settings as a whole has the values that stand with its fields; where
a group is written and one of its settings is not, the reader falls back to the one in `missing`.
-/

namespace SmaliView

structure CacheSettings where
  maxEntries : Nat := 256
deriving DecidableEq, Repr, Inhabited

def CacheSettings.missing : CacheSettings where
  maxEntries := 256

structure LayoutSettings where
  maxAncestorDepth : Nat := 4
deriving DecidableEq, Repr, Inhabited

def LayoutSettings.missing : LayoutSettings where
  maxAncestorDepth := 4

structure AssemblerSettings where
  binaryPath : String := "smali"
  /-- The jar of the assembler; if set, it is run with the Java launcher. -/
  jar : Option Path := none
  javaPath : String := "java"
  apiLevel : Option Nat := none
  /-- Further arguments. -/
  extraFlags : List String := []
deriving DecidableEq, Repr, Inhabited

def AssemblerSettings.missing : AssemblerSettings where
  binaryPath := "smali"
  jar := none
  javaPath := "java"
  apiLevel := none
  extraFlags := []

structure DecompilerSettings where
  binaryPath : String := "jadx"
  /-- Whether only the wanted class is decompiled. -/
  singleClass : Bool := false
  threads : Option Nat := none
  /-- Further arguments. -/
  extraFlags : List String := []
deriving DecidableEq, Repr, Inhabited

def DecompilerSettings.missing : DecompilerSettings where
  binaryPath := "jadx"
  singleClass := false
  threads := none
  extraFlags := []

structure ToolSettings where
  assembler : AssemblerSettings := {}
  decompiler : DecompilerSettings := {}
deriving DecidableEq, Repr, Inhabited

def ToolSettings.missing : ToolSettings where
  assembler := {}
  decompiler := {}

structure LoggingSettings where
  level : String := "info"
  format : String := "pretty"
  /-- The directory of log files; without it there are none. -/
  directory : Option Path := none
  rotation : String := "daily"
deriving DecidableEq, Repr, Inhabited

def LoggingSettings.missing : LoggingSettings where
  level := "info"
  format := "pretty"
  directory := none
  rotation := "daily"

structure Settings where
  /-- How many conversions may run at once. -/
  maxWorkers : Nat := 2
  /-- Where scratch directories are made; if not set, in the temporary directory of the system. -/
  workDirectory : Option Path := none
  cache : CacheSettings := {}
  layout : LayoutSettings := {}
  tools : ToolSettings := {}
  logging : LoggingSettings := {}
deriving DecidableEq, Repr, Inhabited

def Settings.missing : Settings where
  maxWorkers := 2
  workDirectory := none
  cache := {}
  layout := {}
  tools := {}
  logging := {}

end SmaliView
