import SmaliView.ClassName
import SmaliView.FileTree

/-!
# The layout of a decoded project

A decoded project keeps smali units below a *bytecode root*, a directory named `smali` or
`smali_classes<N>`:

```text
project/
  smali/com/example/Main.smali      a unit below the bytecode root `smali`
  smali_classes2/…                  the bytecode root of a second DEX file
  build/apk/classes.dex             a container
  dist/app.apk                      a container
  java_src/com/example/Main.java    Java source beside the bytecode root
  sources/com/example/Main.java     Java source in a directory above
```

`Probe.of` says what the path of a unit tells: its root, its class, and the *anchor* from which
searches go upwards. `containers` and `sources` list the places to look at, in order.
-/

namespace SmaliView

/-- The directory that the package path of a smali unit starts from. -/
structure BytecodeRoot where
  dir : Path
  /-- The digits after `smali_classes`; none for `smali`. -/
  index : Option String
deriving DecidableEq, Repr, Inhabited

namespace BytecodeRoot

/-- The name of the first bytecode root. -/
def plainName : String := "smali"

/-- What the digits of every further bytecode root follow. -/
def numberedStem : String := "smali_classes"

/-- Read the name of a bytecode root: its digits, if it has any. -/
def indexOfName? (name : String) : Option (Option String) :=
  if name = plainName then some none
  else
    let stem := numberedStem.toList
    -- Leading zeros stay: the digits are kept as they are written.
    let digits := name.toList.drop stem.length
    if stem.isPrefixOf name.toList && !digits.isEmpty && digits.all Char.isDigit then
      some (some (String.ofList digits))
    else none

def name (r : BytecodeRoot) : String :=
  match r.index with
  | none => plainName
  | some digits => numberedStem ++ digits

def dexName (r : BytecodeRoot) : String :=
  "classes" ++ r.index.getD "" ++ ".dex"

/-- The names of the directories beside the root that may hold its Java source, in order. -/
def siblingNames (r : BytecodeRoot) : List String :=
  (match r.index with
    | none => []
    | some digits => ["java_src_classes" ++ digits])
  ++ ["java_src", "java", "src"]

/-- A directory as a bytecode root, if its name is that of one. -/
def ofDirectory? (dir : Path) : Option BytecodeRoot :=
  dir.fileName?.bind indexOfName? |>.map fun index => ⟨dir, index⟩

/-- The nearest directory above a file that is a bytecode root. -/
def above? (file : Path) : Option BytecodeRoot :=
  -- The file itself is no candidate, whatever it is called.
  file.ancestors.tail.findSome? ofDirectory?

end BytecodeRoot

/-- A name with its extension taken off. -/
def Component.bare (s : String) : Component :=
  let stem := (Path.splitName s.toList).1
  -- Without the letters of its extension `..smali` leads up, and what leads up keeps its dots.
  if stem = ['.'] then .up else .name (String.ofList stem)

/-- The components of a path with the extension taken off a last name. -/
def withoutExtension (cs : List Component) : List Component :=
  match cs.getLast? with
  | some (.name s) => cs.dropLast ++ [.bare s]
  | _ => cs

/-- The class that the path of a smali unit names: its way down from the bytecode root. -/
def ClassName.ofPath? (file : Path) : Option ClassName := do
  guard (file.extension? = some "smali")
  let root ← BytecodeRoot.above? file
  let way ← file.relativeTo? root.dir
  ClassName.ofBinary? (Text.joinWith '/' ((withoutExtension way).map (·.text.toList)))

structure Probe where
  file : Path
  root : Option BytecodeRoot
  /-- The class that the path names. -/
  pathClass : Option ClassName
  /-- The class that the path names, or else the header. -/
  className : Option ClassName
  /-- Where the searches start. -/
  anchor : Option Path
deriving DecidableEq, Repr, Inhabited

/-- Look at the path of a unit and, if that names no class, at its text. -/
def Probe.of (file : Path) (text : Option String) : Probe :=
  let root := BytecodeRoot.above? file
  let pathClass := ClassName.ofPath? file
  { file, root, pathClass
    className := pathClass <|> text.bind ClassName.ofHeader?
    -- The searches start beside the bytecode root, not in it.
    anchor := root.bind (·.dir.parent?) <|> file.parent? }

/-- How far searches go. -/
structure Layout where
  /-- The number of directories that are searched upwards from the anchor, it included. -/
  depth : Nat
deriving DecidableEq, Repr, Inhabited

namespace Layout

/-- The layout with a configured depth. At least the anchor is searched. -/
def ofDepth (n : Nat) : Layout := ⟨max n 1⟩

/-- The directories that hold Java source below each searched directory, in order. -/
def sourceDirectories : List String :=
  ["sources", "java_src", "jadx/sources", "src/main/java"]

/-- The searched directories, from the anchor upwards. The empty path is none. -/
def searched (layout : Layout) (anchor : Path) : List Path :=
  (anchor.ancestors.filter fun dir => !dir.text.isEmpty).take layout.depth

/-- Whether a file name has the extension of an APK, in letters of any case. -/
def isApk (p : Path) : Bool :=
  p.extension?.any fun ext => ext.map Char.toLower = "apk"

/-- The APKs that are files directly in a directory, in the order of paths. -/
def apksIn (tree : FileTree) (dir : Path) : List Path :=
  match tree.list dir with
  | .error _ => []
  | .ok names =>
    let apks := (names.map fun (name : String) => dir / name).filter fun p =>
      isApk p && tree.isFile p
    apks.mergeSort fun p q => p.compare q != .gt

/-- The APK that lies beside a directory and has its name. -/
def apkBeside (dir : Path) : List Path :=
  match dir.parent?, dir.fileName? with
  | some parent, some name => [parent / (name ++ ".apk")]
  | _, _ => []

/-- The containers that belong to one searched directory, in order. Those with a fixed name are
listed whether they are there or not. -/
def containersIn (tree : FileTree) (dex : String) (dir : Path) : List Path :=
  [dir / "build" / "apk" / dex, dir / dex]
    ++ apksIn tree (dir / "dist") ++ apksIn tree dir ++ apkBeside dir

/-- The containers that may hold the class of a unit, in order, each place once. -/
def containers (layout : Layout) (tree : FileTree) (probe : Probe) : List Path :=
  match probe.anchor with
  | none => []
  | some anchor =>
    let dex := (probe.root.map BytecodeRoot.dexName).getD "classes.dex"
    Path.dedup ((layout.searched anchor).flatMap (containersIn tree dex))

def besideRoot (root : BytecodeRoot) (relative : Path) : List Path :=
  match root.dir.parent? with
  | none => []
  | some parent => root.siblingNames.map fun (name : String) => (parent / name).join relative

def sourcesIn (relative dir : Path) : List Path :=
  sourceDirectories.map fun (name : String) => (dir / name).join relative

/-- The places where the Java source of a unit may lie, in order, each place once. -/
def sources (layout : Layout) (probe : Probe) : List Path :=
  match probe.className, probe.anchor with
  | some c, some anchor =>
    let beside := match probe.root with
      | none => []
      | some root => besideRoot root c.javaPath
    Path.dedup (beside ++ (layout.searched anchor).flatMap (sourcesIn c.javaPath))
  | _, _ => []

end Layout

end SmaliView
