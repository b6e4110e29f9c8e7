import SmaliView.Text.Digits
import SmaliView.Word

/-!
# Floating-point numbers

Settings files may hold numbers with a fraction. None of the settings takes one, so all that is done
with them is to read them and to print them again in an error. A number is kept exactly, as the
binary fraction with 64 bits that is nearest to what was read; `render` writes the shortest decimal
that reads back as the same number.
-/

namespace SmaliView

/-- A floating-point number of 64 bits. -/
inductive Double where
  /-- The number `mantissa * 2 ^ exponent`, below zero if it is negative. -/
  | finite (negative : Bool) (mantissa : Nat) (exponent : Int)
  | infinite (negative : Bool)
  | nan
deriving DecidableEq, Repr, Inhabited

namespace Double

def precision : Nat := 53

def minExponent : Int := -1074

def maxExponent : Int := 971

/-- A quotient rounded to the nearest natural number, to the even one in the middle. -/
def rounded (num den : Nat) : Nat :=
  let q := num / den
  let twice := 2 * (num % den)
  if den < twice || (twice = den && q % 2 = 1) then q + 1 else q

/-- The quotient `num / den` divided by a power of `base`, as a quotient again. -/
def scaled (base : Nat) (num den : Nat) (e : Int) : Nat × Nat :=
  if 0 ≤ e then (num, den * Nat.pow base e.toNat)
  else (num * Nat.pow base (-e).toNat, den)

/-- The number nearest to a positive quotient. -/
def ofQuotient (negative : Bool) (num den : Nat) : Double :=
  -- The logarithms leave two exponents to choose from.
  let low : Int := (num.log2 : Int) - den.log2 - precision
  let (n, d) := scaled 2 num den low
  let exact := if n / d < wordSize precision then low else low + 1
  let exponent := max exact minExponent
  let (n, d) := scaled 2 num den exponent
  let m := rounded n d
  -- Rounding up can carry into one bit more.
  let (m, exponent) :=
    if m = wordSize precision then (wordSize (precision - 1), exponent + 1) else (m, exponent)
  if maxExponent < exponent then .infinite negative else .finite negative m exponent

def digitCount (n : Nat) : Nat := (Nat.toDigits 10 n).length

/-- Above this many digits in front of the point every number is infinite. -/
def digitLimit : Int := 400

/-- The number nearest to `digits * 10 ^ exponent`. -/
def ofDecimal (negative : Bool) (digits : Nat) (exponent : Int) : Double :=
  if digits = 0 then .finite negative 0 minExponent
  else
    let magnitude := (digitCount digits : Int) + exponent
    if digitLimit < magnitude then .infinite negative
    else if magnitude < -digitLimit then .finite negative 0 minExponent
    else
      let (n, d) := scaled 10 digits 1 (-exponent)
      ofQuotient negative n d

def isFinite : Double → Bool
  | .finite .. => true
  | _ => false

/-! ## Reading -/

def splitSign : List Char → Bool × List Char
  | '-' :: rest => (true, rest)
  | '+' :: rest => (false, rest)
  | rest => (false, rest)

/-- The exponent at the end of a number; nothing if what is there is none. -/
def exponent? : List Char → Option Int
  -- No exponent at all.
  | [] => some 0
  | c :: rest =>
    if c == 'e' || c == 'E' then
      let (negative, ds) := splitSign rest
      if ds.isEmpty || !ds.all Char.isDigit then none
      else
        -- Digits beyond these leave the number infinite or zero.
        let ds := ds.dropWhile (· == '0')
        let n : Nat := if 9 < ds.length then Nat.pow 10 9 else Text.decimalValue ds
        some (if negative then -(n : Int) else n)
    else none

def fraction : List Char → List Char × List Char
  | '.' :: rest => rest.span Char.isDigit
  | rest => ([], rest)

/-- A number in decimal: digits with at most one point among them, and an exponent. The words for
what is not finite are read as well, in any case. -/
def ofText? (text : List Char) : Option Double :=
  let (negative, body) := splitSign text
  let word := String.ofList (body.map Char.toLower)
  if word = "inf" || word = "infinity" then some (.infinite negative)
  else if word = "nan" then some .nan
  else
    let (whole, rest) := body.span Char.isDigit
    let (part, rest) := fraction rest
    if whole.isEmpty && part.isEmpty then none
    else do
      let e ← exponent? rest
      return ofDecimal negative (Text.decimalValue (whole ++ part)) (e - part.length)

/-! ## Writing -/

/-- The number of digits in front of the point of a positive quotient; for one below 1, minus the
number of zeros right after the point. -/
def magnitude (num den : Nat) : Int :=
  if den ≤ num then digitCount (num / den)
  else
    let zeros := digitCount (den / num) - 1
    if den ≤ num * Nat.pow 10 zeros then -(zeros : Int) + 1 else -(zeros : Int)

/-- The nearest decimal of so many digits. -/
def nearest (num den : Nat) (digits : Nat) : Nat × Int :=
  let e := magnitude num den - digits
  let (n, d) := scaled 10 num den e
  (rounded n d, e)

/-- The shortest decimal that is read as the number. Seventeen digits always suffice. -/
def shortest (mantissa : Nat) (exponent : Int) : Nat × Int :=
  let (num, den) := scaled 2 mantissa 1 (-exponent)
  let same (digits : Nat) : Bool :=
    let (n, e) := nearest num den digits
    ofDecimal false n e == ofQuotient false num den
  nearest num den (((List.range 17).find? fun n => same (n + 1)).getD 16 + 1)

/-- A decimal without exponent. -/
def plain (digits : Nat) (exponent : Int) : String :=
  let ds := Nat.toDigits 10 digits
  if 0 ≤ exponent then String.ofList (ds ++ List.replicate exponent.toNat '0')
  else
    let places := (-exponent).toNat
    -- At least one digit stands in front of the point.
    let ds := List.replicate (places + 1 - ds.length) '0' ++ ds
    let (whole, part) := ds.splitAt (ds.length - places)
    let part := (part.reverse.dropWhile (· == '0')).reverse
    if part.isEmpty then String.ofList whole else String.ofList (whole ++ '.' :: part)

def render : Double → String
  | .nan => "NaN"
  | .infinite negative => if negative then "-inf" else "inf"
  | .finite negative m e =>
    let sign := if negative then "-" else ""
    if m = 0 then sign ++ "0"
    else
      let (digits, exponent) := shortest m e
      sign ++ plain digits exponent

instance : ToString Double := ⟨render⟩

end Double

end SmaliView
