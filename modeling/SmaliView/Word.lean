/-!
# Words

Whole numbers are kept without a bound; what is read and printed is checked against the sizes of the
words that hold it.
-/

namespace SmaliView

/-- The number of values that a word of some bits has. -/
def wordSize (bits : Nat) : Nat := Nat.pow 2 bits

end SmaliView
