/-!
# Blank characters

Names, header lines and settings are trimmed and cut at *blank* characters: the twenty-five
code points that carry the Unicode property `White_Space`. Everything here works on lists of
characters, so that each operation is a `takeWhile` or a `dropWhile`.
-/

namespace SmaliView.Text

def isBlank (c : Char) : Bool :=
  let n := c.toNat
  (0x09 ≤ n && n ≤ 0x0D) || n == 0x20 || n == 0x85 || n == 0xA0 || n == 0x1680
    || (0x2000 ≤ n && n ≤ 0x200A) || n == 0x2028 || n == 0x2029 || n == 0x202F
    || n == 0x205F || n == 0x3000

/-- The blanks that are ASCII characters: space, tab, line feed, form feed, carriage return. -/
def isAsciiBlank (c : Char) : Bool :=
  c == ' ' || c == '\t' || c == '\n' || c == '\x0c' || c == '\r'

/-- Drop the longest run at the end whose elements satisfy `f`. -/
def dropEnd {α : Type} (f : α → Bool) (xs : List α) : List α :=
  (xs.reverse.dropWhile f).reverse

def trim (cs : List Char) : List Char :=
  dropEnd isBlank (cs.dropWhile isBlank)

def trimmed (s : String) : String :=
  String.ofList (trim s.toList)

def trimmedEnd (s : String) : String :=
  String.ofList (dropEnd isBlank s.toList)

/-- One step of `words`, from the right: a blank closes the word under construction. -/
def wordStep (c : Char) : List Char × List (List Char) → List Char × List (List Char)
  | (current, done) =>
    if isBlank c then ([], if current.isEmpty then done else current :: done)
    else (c :: current, done)

/-- The maximal runs of characters that are not blank, from left to right. -/
def words (cs : List Char) : List (List Char) :=
  match cs.foldr wordStep ([], []) with
  | (current, done) => if current.isEmpty then done else current :: done

end SmaliView.Text
