import SmaliView.Path
import SmaliView.Instant
import SmaliView.SystemError
import SmaliView.Table
import SmaliView.Text.Utf8

/-!
# File trees

The files that conversions read and write are a value: a finite map from *locations*, the names that
lead down from the root, to what stands there. A path is turned into a location by `locate`, which
follows links the way Unix does; all other operations work at locations. Every operation that
changes the tree returns the new one, and `entryAt?_put` and `entryAt?_erase` say what it holds.
-/

namespace SmaliView

open Text (Bytes)

/-- The names that lead from the root of the tree to a file or directory. -/
abbrev Location := List String

structure Permissions where
  readable : Bool := true
  executable : Bool := false
deriving DecidableEq, Repr, Inhabited

/-- What stands at a location. -/
inductive Entry where
  | file (content : Bytes) (modified : Instant) (permissions : Permissions)
  | directory
  /-- A symbolic link; its target is read from the directory it lies in. -/
  | link (target : Path)
deriving DecidableEq, Repr, Inhabited

/-- What is told about a file or directory without reading it. -/
structure FileInfo where
  isFile : Bool
  modified : Instant
  length : Nat
  executable : Bool
deriving DecidableEq, Repr, Inhabited

/-- A tree of files, seen from a working directory. -/
structure FileTree where
  entries : Table Location Entry := {}
  /-- Where relative paths start. -/
  cwd : Location := []
  /-- The modification time of what is written. -/
  now : Instant := ⟨0, 0⟩
deriving Repr, Inhabited

namespace FileTree

/-! ## The map -/

/-- What stands at a location. The root is always a directory. -/
def entryAt? (t : FileTree) (l : Location) : Option Entry :=
  -- So an empty table is a tree, and nothing can take the root away.
  if l = [] then some .directory else t.entries.get? l

def put (t : FileTree) (l : Location) (e : Entry) : FileTree :=
  { t with entries := t.entries.put l e }

/-- The tree without a location and all below it. -/
def erase (t : FileTree) (l : Location) : FileTree :=
  { t with entries := t.entries.keep fun l' => !l.isPrefixOf l' }

/-- The names of what lies directly in the directory at a location. -/
def namesIn (t : FileTree) (l : Location) : List String :=
  t.entries.entries.filterMap fun (l', _) =>
    if l'.dropLast = l then l'.getLast? else none

/-! ## From paths to locations -/

/-- A step along a path. -/
inductive Step where
  /-- Stay; what is here must be a directory. -/
  | here
  | up
  | down (name : String)
deriving DecidableEq, Repr

/-- The steps of a path. A separator at its end asks for a directory, as a last `.` does. -/
def steps (p : Path) : List Step :=
  let moves := p.pieces.map fun piece =>
    if Path.idle piece then .here
    else if piece = ['.', '.'] then .up
    else .down (String.ofList piece)
  moves

def start (p : Path) (base : Location) : Location :=
  if p.rooted then [] else base

/-- How many links may be followed for one path. -/
def linkLimit : Nat := 40

/-- The length in bytes that a name may have. -/
def nameLimit : Nat := 255

/-- The length in bytes that a path may have. -/
def pathLimit : Nat := 4095

/-- Walk from a directory along steps. From a link the walk goes on by `jump` with the steps of its
target, except at the end of the walk if the link is not to be followed. Nothing needs to stand at
the location that the last step leads to. -/
def walkBy (t : FileTree) (follow : Bool)
    (jump : Location → List Step → Except SystemError Location) :
    Location → List Step → Except SystemError Location
  | l, [] => .ok l
  | l, step :: rest =>
    match t.entryAt? l with
    | some .directory =>
      match step with
      | .here => t.walkBy follow jump l rest
      | .up => t.walkBy follow jump l.dropLast rest
      | .down name =>
        if nameLimit < name.utf8ByteSize then .error .nameTooLong
        else match t.entryAt? (l ++ [name]) with
          | some (.link target) =>
            -- A link at the end stands for itself if it is not to be followed.
            if rest.isEmpty && !follow then .ok (l ++ [name])
            else if target.text.isEmpty then .error .noEntry
            else jump (start target l) (steps target ++ rest)
          | _ => t.walkBy follow jump (l ++ [name]) rest
    | none => .error .noEntry
    -- Also a step that stays needs a directory to stay in.
    | some _ => .error .notDirectory

/-- Walk from a directory along steps, with at most `links` links followed on the way. -/
def walk (t : FileTree) (follow : Bool) :
    (links : Nat) → Location → List Step → Except SystemError Location
  | 0 => t.walkBy follow fun _ _ => .error .linkLoop
  | links + 1 => t.walkBy follow (t.walk follow links)

/-- Refuse a path that cannot name anything. -/
def check (p : Path) : Except SystemError Unit :=
  if '\x00' ∈ p.text.toList then .error .pathWithNul
  else if p.text.isEmpty then .error .noEntry
  else if pathLimit < p.text.utf8ByteSize then .error .nameTooLong
  else .ok ()

/-- The location that a path names. -/
def locate (t : FileTree) (p : Path) (follow : Bool := true) : Except SystemError Location := do
  check p
  t.walk follow linkLimit (start p t.cwd) (steps p)

/-- The absolute path of a location. -/
def pathOf (l : Location) : Path :=
  ⟨"/" ++ "/".intercalate l⟩

/-- The path from the root that a path stands for; links and `..` stay as they are. -/
def absolute (t : FileTree) (p : Path) : Path :=
  (pathOf t.cwd).join p

/-! ## Looking -/

def find (t : FileTree) (p : Path) : Except SystemError Entry := do
  match t.entryAt? (← t.locate p) with
  | some e => .ok e
  | none => .error .noEntry

/-- The length that is told of a directory. -/
def directoryLength : Nat := 4096

def describe (t : FileTree) : Entry → FileInfo
  | .file content modified may => ⟨true, modified, content.length, may.executable⟩
  | .directory => ⟨false, t.now, directoryLength, true⟩
  | .link _ => ⟨false, t.now, 0, false⟩

/-- What is told about the file or directory at a path. -/
def info (t : FileTree) (p : Path) : Except SystemError FileInfo :=
  t.describe <$> t.find p

/-- What is told about the regular file at a path, if there is one. -/
def fileInfo? (t : FileTree) (p : Path) : Option FileInfo :=
  match t.info p with
  | .ok i => if i.isFile then some i else none
  | .error _ => none

def isFile (t : FileTree) (p : Path) : Bool :=
  (t.fileInfo? p).isSome

def isDirectory (t : FileTree) (p : Path) : Bool :=
  match t.find p with
  | .ok .directory => true
  | _ => false

def contains (t : FileTree) (p : Path) : Bool :=
  (t.find p).toBool

/-- The content of the file at a path. -/
def read (t : FileTree) (p : Path) : Except SystemError Bytes := do
  match ← t.find p with
  | .file content _ may => if may.readable then .ok content else .error .accessDenied
  -- Only a directory is left: `find` follows links.
  | _ => .error .isDirectory

/-- The names in the directory at a path. -/
def list (t : FileTree) (p : Path) : Except SystemError (List String) := do
  let l ← t.locate p
  match t.entryAt? l with
  | some .directory => .ok (t.namesIn l)
  | some _ => .error .notDirectory
  | none => .error .noEntry

/-! ## Changing -/

/-- Write a file. One that was there keeps its permissions. -/
def write (t : FileTree) (p : Path) (content : Bytes) : Except SystemError FileTree := do
  let l ← t.locate p
  match t.entryAt? l with
  | some (.file _ _ may) => .ok (t.put l (.file content t.now may))
  | some _ => .error .isDirectory
  | none => .ok (t.put l (.file content t.now {}))

def append (t : FileTree) (p : Path) (content : Bytes) : Except SystemError FileTree :=
  match t.read p with
  | .ok old => t.write p (old ++ content)
  | .error _ => t.write p content

/-- Copy a file, with its permissions. -/
def copy (t : FileTree) (source target : Path) : Except SystemError FileTree := do
  match ← t.find source with
  | .file content _ may =>
    -- The source is opened before the target is looked for.
    if !may.readable then .error .accessDenied
    else
      let l ← t.locate target
      match t.entryAt? l with
      | some (.file ..) | none => .ok (t.put l (.file content t.now may))
      | some _ => .error .isDirectory
  | _ =>
    .error (.invalid "the source path is neither a regular file nor a symlink to a regular file")

/-- Make a directory in a directory that is there. -/
def makeDirectory (t : FileTree) (p : Path) : Except SystemError FileTree := do
  check p
  -- A separator at the end asks for the directory that is to be made.
  let moves := Text.dropEnd (· == Step.here) (steps p)
  let l ← t.walk false linkLimit (start p t.cwd) moves
  match t.entryAt? l with
  | some _ => .error .alreadyExists
  | none => .ok (t.put l .directory)

/-- Make a directory, unless there is one already. -/
def ensureDirectory (t : FileTree) (p : Path) : FileTree × Except SystemError Unit :=
  match t.makeDirectory p with
  | .ok t => (t, .ok ())
  -- Whatever the refusal, a directory that is there will do.
  | .error e => (t, if t.isDirectory p then .ok () else .error e)

/-- Make the directories that a list of paths, innermost first, names. The first one is tried
before the ones it lies in; it does not matter if one of them is there already. What was made before
a refusal stays. -/
def makeAll (t : FileTree) : List Path → FileTree × Except SystemError Unit
  | [] => (t, .error (.invalid "failed to create whole tree"))
  | p :: above =>
    -- The empty path is the directory that relative paths start in.
    if p.components = [] then (t, .ok ())
    else match t.makeDirectory p with
      | .ok t => (t, .ok ())
      | .error e =>
        if e = .noEntry then
          match t.makeAll above with
          | (t, .ok ()) => t.ensureDirectory p
          | (t, .error e) => (t, .error e)
        else t.ensureDirectory p

/-- Make a directory and all that it lies in. -/
def makeDirectories (t : FileTree) (p : Path) : Except SystemError FileTree :=
  match t.makeAll p.ancestors with
  | (t, .ok ()) => .ok t
  | (_, .error e) => .error e

def removeFile (t : FileTree) (p : Path) : Except SystemError FileTree := do
  let l ← t.locate p false
  match t.entryAt? l with
  | some .directory => .error .isDirectory
  | some _ => .ok (t.erase l)
  | none => .error .noEntry

/-- Remove whatever stands at a path, with all below it. -/
def removeTree (t : FileTree) (p : Path) : FileTree :=
  match t.locate p false with
  | .ok l => t.erase l
  | .error _ => t

/-- Make a new directory below `base`. Its name starts as given and ends in six digits that make it
different from all that is there. -/
def makeFresh (t : FileTree) (base : Path) (stem : String) :
    Except SystemError (Path × FileTree) := do
  let l ← t.locate (t.absolute base)
  let taken := t.namesIn l
  let name (n : Nat) : String := stem ++ Instant.padded 6 n
  -- One more name than are taken, so one of them is free.
  let n := ((List.range (taken.length + 1)).find? fun n => name n ∉ taken).getD 0
  let p := (t.absolute base) / name n
  let t ← t.makeDirectory p
  return (p, t)

/-! ## What the map holds -/

theorem entryAt?_nil (t : FileTree) : t.entryAt? [] = some .directory := by simp [entryAt?]

/-- Putting an entry changes its own location and no other. -/
theorem entryAt?_put (t : FileTree) {l : Location} (hl : l ≠ []) (e : Entry) (l' : Location) :
    (t.put l e).entryAt? l' = if l' = l then some e else t.entryAt? l' := by
  by_cases hn : l' = []
  · simp [entryAt?, hn, Ne.symm hl]
  · simp [entryAt?, put, hn, Table.get?_put]

/-- Erasing a location removes it and what lies below it, and nothing else. -/
theorem entryAt?_erase (t : FileTree) (l : Location) {l' : Location} (hn : l' ≠ []) :
    (t.erase l).entryAt? l' = if l.isPrefixOf l' then none else t.entryAt? l' := by
  cases h : l.isPrefixOf l' <;> simp [entryAt?, erase, hn, Table.get?_keep, h]

end FileTree

end SmaliView
