import SmaliView.Path
import SmaliView.Text.Offset

/-!
# Class names

A class goes by its *binary name*: package segments and a simple name joined by `/`, with `$` in
front of the names of nested classes, such as `com/example/Main$Inner`. Three readers produce
one: from the binary name itself, from a type descriptor `L…;`, and from the `.class` line that
heads a unit of smali code. The paths of a class are relative: the Java file belongs to the
top-level class, the smali file to the class itself.
-/

namespace SmaliView

open Text (cut joinWith)

structure ClassName where
  binary : String
deriving DecidableEq, Repr, Inhabited

namespace ClassName

/-- Read a binary name. Blanks at the ends do not count; an empty segment is refused. -/
def ofBinary? (name : List Char) : Option ClassName :=
  -- Blanks inside of a segment stay.
  let name := Text.trim name
  if [] ∈ cut '/' name then none else some ⟨String.ofList name⟩

/-- Read a type descriptor: a binary name between `L` and `;`. -/
def ofDescriptor? (descriptor : List Char) : Option ClassName :=
  match descriptor with
  | 'L' :: rest => if rest.getLast? = some ';' then ofBinary? rest.dropLast else none
  | _ => none

/-- The directive that names the class of a smali unit. -/
def directive : List Char := ".class".toList

/-- Read the header of a smali unit: the first line whose first word is the directive names the
class in its last word. -/
def ofHeader? (text : String) : Option ClassName :=
  ((Text.lines text.toList).map Text.words).find? (·.head? = some directive)
    |>.bind List.getLast? |>.bind ofDescriptor?

def segments (c : ClassName) : List (List Char) :=
  cut '/' c.binary.toList

def qualified (c : ClassName) : String :=
  String.ofList (c.binary.toList.map fun ch => if ch = '/' then '.' else ch)

/-- What stands before the last `/`, if there is one, and the rest. -/
def split (c : ClassName) : Option (List Char) × List Char :=
  match Text.cutLast? '/' c.binary.toList with
  | some (above, last) => (some above, last)
  | none => (none, c.binary.toList)

/-- Where the name of the top-level class ends in the binary name, in bytes: before the first `$`
of the last segment. -/
def topEnd (c : ClassName) : Nat :=
  let (above, last) := c.split
  (above.map (Text.size · + 1)).getD 0 + (Text.offset? '$' last).getD (Text.size last)

/-- The binary name of the class that encloses this one and is enclosed by none. It is a slice of
the binary name (`upTo?_topEnd`). -/
def topLevel (c : ClassName) : String :=
  String.ofList ((Text.upTo? c.topEnd c.binary.toList).getD [])

/-- The segments of the top-level class: the last one ends before its first `$`. -/
def topSegments (c : ClassName) : List (List Char) :=
  c.segments.dropLast ++ [(c.segments.getLastD []).takeWhile (· != '$')]

def simple (c : ClassName) : String :=
  String.ofList (c.topSegments.getLastD [])

/-- The dotted package; empty for a class without one. -/
def package (c : ClassName) : String :=
  String.ofList (joinWith '.' c.segments.dropLast)

/-- Where the Java source of the class lies below a source directory. -/
def javaPath (c : ClassName) : Path :=
  -- A dot in the simple name counts: what follows the last one is replaced.
  (Path.ofNames (c.topSegments.map String.ofList)).withExtension "java"

/-- Where the smali unit of the class lies below a bytecode root. -/
def smaliPath (c : ClassName) : Path :=
  (Path.ofNames (c.segments.map String.ofList)).withExtension "smali"

/-- The smallest Java source that declares the top-level class. -/
def stub (c : ClassName) : String :=
  let body := "public class " ++ c.simple ++ " \x7b\n\x7d\n"
  if c.package.isEmpty then body else "package " ++ c.package ++ ";\n\n" ++ body

instance : ToString ClassName := ⟨qualified⟩

/-! ## The slice -/

theorem split_cases (c : ClassName) :
    (c.split = (none, c.binary.toList) ∧ '/' ∉ c.binary.toList) ∨
      ∃ above last, c.split = (some above, last) ∧
        c.binary.toList = above ++ '/' :: last ∧ '/' ∉ last := by
  rw [split]
  cases h : Text.cutLast? '/' c.binary.toList with
  | none => exact .inl ⟨rfl, Text.cutLast?_eq_none h⟩
  | some parts => exact .inr ⟨parts.1, parts.2, rfl, Text.cutLast?_eq_some h⟩

/-- The slice ends between two characters, and holds the segments of the top-level class. -/
theorem upTo?_topEnd (c : ClassName) :
    Text.upTo? c.topEnd c.binary.toList = some (joinWith '/' c.topSegments) := by
  -- the slice is what stands up to the last `/`, if there is one, and the rest up to the first `$`
  rcases split_cases c with ⟨hsplit, hwhole⟩ | ⟨above, last, hsplit, hbinary, hwhole⟩
  · have htop : joinWith '/' c.topSegments = c.binary.toList.takeWhile (· != '$') := by
      rw [topSegments, segments, Text.cut_of_not_mem hwhole]
      rfl
    have hend : c.topEnd = Text.size (c.binary.toList.takeWhile (· != '$')) := by
      rw [topEnd, hsplit, ← Text.offset?_getD]
      exact Nat.zero_add _
    rw [hend, htop]
    exact Text.upTo?_size (List.takeWhile_prefix _)
  · have htop : joinWith '/' c.topSegments = above ++ '/' :: last.takeWhile (· != '$') := by
      rw [topSegments, segments, hbinary, Text.cut_append_sep, Text.cut_of_not_mem hwhole,
        List.dropLast_concat, List.getLastD_concat, Text.joinWith_concat _ (Text.cut_ne_nil _ _),
        Text.joinWith_cut]
    have hend : c.topEnd = Text.size (above ++ '/' :: last.takeWhile (· != '$')) := by
      rw [topEnd, hsplit, Text.size_append, Text.size_cons, ← Text.offset?_getD, ← Nat.add_assoc]
      rfl
    rw [hend, htop, hbinary]
    refine Text.upTo?_size ((List.prefix_append_right_inj above).mpr ?_)
    exact List.cons_prefix_cons.mpr ⟨rfl, List.takeWhile_prefix _⟩

theorem topLevel_eq (c : ClassName) : c.topLevel = String.ofList (joinWith '/' c.topSegments) := by
  rw [topLevel, upTo?_topEnd, Option.getD_some]

theorem slice_topLevel (c : ClassName) :
    c.topLevel.toList <+: c.binary.toList ∧ Text.size c.topLevel.toList = c.topEnd := by
  rw [topLevel_eq, String.toList_ofList]
  exact Text.upTo?_eq_some_iff.mp (upTo?_topEnd c)

end ClassName

end SmaliView
