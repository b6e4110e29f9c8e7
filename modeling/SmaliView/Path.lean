import SmaliView.Text.Blank
import SmaliView.Text.Pieces

/-!
# Paths

A path is its text, kept as it was written, together with the view `components`: separators
that are doubled or trailing and pieces `.` after the first say nothing and are *idle*. Two paths
name the same place when their components agree (`Path.same`), while printing gives the text
back.

The operations `parent?`, `ancestors`, `fileName?`, `extension?`, `withExtension` and `join` keep
as much of the text as they can: they remove or add at its end.
-/

namespace SmaliView

open Text (cut joinWith dropEnd)

/-- A location in a file tree, as it was written. -/
structure Path where
  text : String
deriving DecidableEq, Repr, Inhabited

/-- What a path says, piece by piece. -/
inductive Component where
  /-- The leading separator of an absolute path. -/
  | root
  /-- A leading `.`. -/
  | here
  /-- A piece `..`. -/
  | up
  /-- Any other piece. -/
  | name (s : String)
deriving DecidableEq, Repr, Inhabited

namespace Component

def text : Component → String
  | .root => "/"
  | .here => "."
  | .up => ".."
  | .name s => s

/-- The component that a piece other than a leading `.` stands for. -/
def ofPiece (piece : List Char) : Component :=
  if piece = ['.', '.'] then .up else .name (String.ofList piece)

/-- The component that the first piece of a relative path stands for. -/
def ofFirst (piece : List Char) : Component :=
  -- Only in front of a relative path does a `.` say something.
  if piece = ['.'] then .here else ofPiece piece

/-- Order of the kinds of component: root, here, up, name. -/
def rank : Component → Nat
  | .root => 0
  | .here => 1
  | .up => 2
  | .name _ => 3

/-- Kinds by rank, names by their characters. -/
def compare : Component → Component → Ordering
  | .name a, .name b => compareOfLessAndEq a b
  | a, b => Ord.compare a.rank b.rank

end Component

namespace Path

def rooted (p : Path) : Bool :=
  p.text.toList.head? == some '/'

/-- The text after the leading separator. -/
def body (p : Path) : List Char :=
  if p.rooted then p.text.toList.tail else p.text.toList

/-- The text after the leading separator, cut at the separators. -/
def pieces (p : Path) : List (List Char) :=
  if p.body = [] then [] else cut '/' p.body

def ofPieces (rooted : Bool) (ps : List (List Char)) : Path :=
  ⟨String.ofList ((if rooted then ['/'] else []) ++ joinWith '/' ps)⟩

/-- An empty piece or a `.`: it does not move. -/
def idle (piece : List Char) : Bool :=
  piece == [] || piece == ['.']

/-- The components of pieces that stand after the root or after the first piece. -/
def inner (ps : List (List Char)) : List Component :=
  (ps.filter fun piece => !idle piece).map Component.ofPiece

/-- What the path says, from its start. -/
def components (p : Path) : List Component :=
  if p.rooted then .root :: inner p.pieces
  else match p.pieces with
    -- The empty path has no components; it is not the path `.`.
    | [] => []
    | piece :: rest => .ofFirst piece :: inner rest

def same (p q : Path) : Bool :=
  p.components == q.components

/-- The order of paths: by components, the first difference decides. -/
def compare (p q : Path) : Ordering :=
  go p.components q.components
where
  go : List Component → List Component → Ordering
    | [], [] => .eq
    | [], _ :: _ => .lt
    | _ :: _, [] => .gt
    | a :: as, b :: bs => (a.compare b).then (go as bs)

/-- Pieces without the idle ones at their end. The first piece of a relative path stays. -/
def settle (rooted : Bool) (ps : List (List Char)) : List (List Char) :=
  if rooted then dropEnd idle ps
  else match ps with
    | [] => []
    | piece :: rest => piece :: dropEnd idle rest

/-- The directory a path lies in: the path without its last component. The root and the empty
path lie in none. -/
def parent? (p : Path) : Option Path :=
  let ps := settle p.rooted p.pieces
  -- Idle pieces go on both sides of the component that is taken off.
  if ps = [] then none else some (ofPieces p.rooted (settle p.rooted ps.dropLast))

/-- The path and the directories above it, at most `n` of them, nearest first. -/
def ancestorsFrom : Nat → Path → List Path
  | 0, p => [p]
  | n + 1, p => p :: (match p.parent? with
    | none => []
    | some q => ancestorsFrom n q)

/-- The path and all directories above it, nearest first. -/
def ancestors (p : Path) : List Path :=
  ancestorsFrom p.components.length p

/-- The last component, if it is a name. -/
def fileName? (p : Path) : Option String :=
  match p.components.getLast? with
  | some (.name s) => some s
  | _ => none

/-- A file name cut at its last dot. A name whose only dot is its first character has no
extension. -/
def splitName (name : List Char) : List Char × Option (List Char) :=
  let after := (name.reverse.takeWhile (· != '.')).reverse
  match (name.reverse.dropWhile (· != '.')).reverse.dropLast with
  -- No dot, or only a leading one.
  | [] => (name, none)
  | stem => (stem, some after)

def extension? (p : Path) : Option String :=
  p.fileName?.bind fun name => (splitName name.toList).2.map String.ofList

/-- The path with another extension, or with none for the empty extension. A path that ends in
no name stays as it is. -/
def withExtension (p : Path) (ext : String) : Path :=
  match p.fileName? with
  | none => p
  | some name =>
    let stem := (splitName name.toList).1
    let last := if ext.isEmpty then stem else stem ++ '.' :: ext.toList
    ofPieces p.rooted ((settle p.rooted p.pieces).dropLast ++ [last])

/-- One path below another. An absolute path replaces what stands before it. -/
def join (p q : Path) : Path :=
  if q.rooted then q
  -- No separator is doubled, and none is put in front of a relative path.
  else if p.text.isEmpty || p.text.toList.getLast? == some '/' then ⟨p.text ++ q.text⟩
  else ⟨p.text ++ "/" ++ q.text⟩

instance : Div Path := ⟨join⟩

instance : HDiv Path String Path := ⟨fun p s => p.join ⟨s⟩⟩

/-- The path built by going down name by name, from the empty path. -/
def ofNames (names : List String) : Path :=
  names.foldl (fun p s => p.join ⟨s⟩) ⟨""⟩

/-- The components that lead from `base` down to `p`. -/
def relativeTo? (p base : Path) : Option (List Component) :=
  if base.components.isPrefixOf p.components then
    some (p.components.drop base.components.length)
  else none

/-- The paths with every one removed that names the same place as an earlier one. -/
def dedup (paths : List Path) : List Path :=
  (paths.foldl (fun kept p => if kept.any (same p) then kept else p :: kept) []).reverse

instance : ToString Path := ⟨Path.text⟩

end Path

end SmaliView
