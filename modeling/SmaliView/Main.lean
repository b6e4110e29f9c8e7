import SmaliView.CommandLine.Run

/-!
# The program

The outer layer reads the surroundings of the process, runs the command line on them as values,
and prints what it gives. It takes in all files below the current directory, the files of settings
in the directories above it, the files that the arguments name, and the launchers of the tools on
the search path. Nothing is written back: all that a conversion makes is scratch.
-/

namespace SmaliView.Program

/-- How deep the directories below the current one are taken in. -/
def depthLimit : Nat := 64

def contentOf? (path : String) : IO (Option Text.Bytes) := do
  try
    return some (← IO.FS.readBinFile path).data.toList
  catch _ => return none

def locationOf (path : String) : Location :=
  (path.splitOn "/").filter fun name => name != "" && name != "."

/-- Put a directory into a tree, and those that it lies in. -/
def addDirectory (t : FileTree) (l : Location) : FileTree :=
  (List.range l.length).foldl (fun t n => t.put (l.take (n + 1)) .directory) t

/-- Whether a file names an interpreter for itself. -/
def isScript (content : Text.Bytes) : Bool :=
  content.take 2 == [0x23, 0x21]

def addFile (t : FileTree) (path : String) : IO FileTree := do
  match ← contentOf? path with
  | none => return t
  | some content =>
    let here := (← IO.currentDir) / path
    let l := locationOf here.toString
    let time := (← here.metadata).modified
    let entry := Entry.file content (Instant.ofParts time.sec time.nsec.toNat)
      { executable := isScript content }
    return (addDirectory t l.dropLast).put l entry

def addAll : Nat → FileTree → String → IO FileTree
  | 0, t, _ => return t
  | n + 1, t, path => do
    let here := (← IO.currentDir) / path
    let mut t := addDirectory t (locationOf here.toString)
    for e in ← here.readDir do
      let child := (here / e.fileName).toString
      if ← (here / e.fileName).isDir then t ← addAll n t child
      else t ← addFile t child
    return t

def environment : IO Environment.Variables := do
  let content := (← contentOf? "/proc/self/environ").getD []
  let texts := (Text.decodeLossy content).splitOn "\x00"
  return texts.filterMap fun text =>
    match text.splitOn "=" with
    -- A value may hold equals signs itself.
    | name :: first :: rest => some (name, "=".intercalate (first :: rest))
    | _ => none

/-- The files of settings that may be meant from a directory. -/
def settingsFiles (cwd : Location) : List String :=
  (Settings.searched cwd).flatMap fun dir =>
    Settings.projectFiles.map fun file => (FileTree.pathOf dir / file).text

/-- The launchers that settings name, in every directory of the search path. -/
def launchers (s : Settings) (search : List Path) : List String :=
  -- An absolute name replaces the directory, so it is taken in as it is.
  search.flatMap fun dir =>
    [s.tools.assembler.binaryPath, s.tools.assembler.javaPath, s.tools.decompiler.binaryPath].map
      fun name => (dir / name).text

/-- The files that an invocation names. -/
def namedFiles : Invocation → List String
  | .run options command =>
    let files := match command with
      | .convert file _ | .locate file => [file.text]
      | .tools => []
    files ++ (options.config.map Path.text).toList
  | .version | .help | .misuse => []

/-- The surroundings of the process, as far as an invocation needs them. -/
def surroundings (i : Invocation) : IO Surroundings := do
  let cwd := locationOf (← IO.currentDir).toString
  let environment ← environment
  let search := ((environment.lookup "PATH").getD "").splitOn ":" |>.map Path.mk
  let temporary : Path := ⟨(environment.lookup "TMPDIR").getD "/tmp"⟩
  let mut tree : FileTree := addDirectory { cwd } (locationOf temporary.text)
  tree ← addAll depthLimit tree "."
  for file in settingsFiles cwd ++ namedFiles i do
    tree ← addFile tree file
  let options := match i with
    | .run options _ => options
    | .version | .help | .misuse => {}
  let w : Surroundings := { tree, environment, search, temporary }
  -- Which launchers to take in is known only from the settings.
  match CommandLine.settings w options with
  | .error _ => return w
  | .ok s => return { w with tree := ← (launchers s search).foldlM addFile tree }

end SmaliView.Program

/-- Run the command line of the process. -/
def main (args : List String) : IO UInt32 := do
  let w ← SmaliView.Program.surroundings (SmaliView.Invocation.ofArguments args)
  let ending := SmaliView.CommandLine.run w args
  IO.print ending.stdout
  IO.eprint ending.stderr
  return ending.code.toUInt32
