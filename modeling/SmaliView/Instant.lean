import SmaliView.Text.Blank
import SmaliView.Text.Digits

/-!
# Instants

A point in time is a count of seconds since the Unix epoch and the nanoseconds after that second.
Nanoseconds at or above 10^9 stand for a leap second. `render` writes an instant in the form of
RFC 3339 and `parse?` reads one. Dates are those of the proleptic Gregorian calendar.

Not every instant has a date: a `Calendar` reaches only so far, and what needs a date breaks off at
an instant beyond it. How far it reaches is left open; `Calendar.gregorian` is the one that programs
are run with.
-/

namespace SmaliView

open Text (isBlank isAsciiBlank)

/-- A point in time, in UTC. -/
structure Instant where
  seconds : Int
  nanos : Nat
deriving DecidableEq, Repr, Inhabited

namespace Instant

def nanosPerSecond : Nat := 1000000000

/-- The instant `seconds + nanos / 10^9`, with whole seconds carried over. -/
def ofParts (seconds : Int) (nanos : Nat) : Instant :=
  ⟨seconds + (nanos / nanosPerSecond : Nat), nanos % nanosPerSecond⟩

/-! ## The calendar -/

structure Date where
  year : Int
  month : Nat
  day : Nat
deriving DecidableEq, Repr

/-- The day with the given number, counted from 1970-01-01. Years run from March, so that the
leap day ends one; 146097 days make an era of 400 years. -/
def Date.ofDay (n : Int) : Date :=
  -- From here on days are counted from 0000-03-01.
  let shifted := n + 719468
  let era := shifted / 146097
  let dayOfEra := (shifted % 146097).toNat
  let yearOfEra :=
    (dayOfEra - dayOfEra / 1460 + dayOfEra / 36524 - dayOfEra / 146096) / 365
  let dayOfYear := dayOfEra - (365 * yearOfEra + yearOfEra / 4 - yearOfEra / 100)
  -- From March on, five months always have 153 days.
  let marchMonth := (5 * dayOfYear + 2) / 153
  let day := dayOfYear - (153 * marchMonth + 2) / 5 + 1
  let month := if marchMonth < 10 then marchMonth + 3 else marchMonth - 9
  let year := era * 400 + yearOfEra + (if month ≤ 2 then 1 else 0)
  ⟨year, month, day⟩

/-- The number of a day, counted from 1970-01-01. -/
def Date.toDay (d : Date) : Int :=
  let year := if d.month ≤ 2 then d.year - 1 else d.year
  let era := year / 400
  let yearOfEra := (year % 400).toNat
  let marchMonth := if d.month > 2 then d.month - 3 else d.month + 9
  let dayOfYear := (153 * marchMonth + 2) / 5 + d.day - 1
  let dayOfEra := yearOfEra * 365 + yearOfEra / 4 - yearOfEra / 100 + dayOfYear
  era * 146097 + dayOfEra - 719468

def isLeap (year : Int) : Bool :=
  year % 4 == 0 && (year % 100 != 0 || year % 400 == 0)

def monthLength (year : Int) (month : Nat) : Nat :=
  if month == 2 then (if isLeap year then 29 else 28)
  else if month == 4 || month == 6 || month == 9 || month == 11 then 30
  else 31

/-- Whether the date exists. -/
def Date.isValid (d : Date) : Bool :=
  1 ≤ d.month && d.month ≤ 12 && 1 ≤ d.day && d.day ≤ monthLength d.year d.month

def date (t : Instant) : Date :=
  Date.ofDay (t.seconds / 86400)

/-- A time in one of the years that RFC 3339 writes with four digits. -/
def IsOrdinary (t : Instant) : Prop :=
  0 ≤ t.date.year ∧ t.date.year ≤ 9999

end Instant

/-- How times are turned into dates. Not every time may have one. -/
structure Calendar where
  /-- The time as one that has a date, or what is said when it has none. -/
  dateTime : Instant → Except String Instant

namespace Calendar

/-- What a calendar promises: a date is that of the time it was asked for, and there is one for all
times that are ordinary. Nothing is said about other times. -/
structure Lawful (cal : Calendar) : Prop where
  keeps : ∀ {t u : Instant}, cal.dateTime t = .ok u → u = t
  covers : ∀ {t : Instant}, t.IsOrdinary → ∃ u, cal.dateTime t = .ok u

/-- A calendar with dates in the given years only. -/
def ofYears (first last : Int) (refusal : String) : Calendar where
  dateTime t :=
    if first ≤ t.date.year ∧ t.date.year ≤ last then .ok t else .error refusal

/-- The calendar that programs are run with. -/
def gregorian : Calendar :=
  ofYears (-262143) 262142 "No such local time"

instance : Inhabited Calendar := ⟨gregorian⟩

/-- Dates in all ordinary years are enough for a calendar to be lawful. -/
theorem lawful_ofYears {first last : Int} (hfirst : first ≤ 0) (hlast : 9999 ≤ last)
    (refusal : String) : (ofYears first last refusal).Lawful where
  keeps h := by
    simp only [ofYears] at h
    split at h
    · exact (Except.ok.inj h).symm
    · cases h
  covers h := ⟨_, if_pos ⟨Int.le_trans hfirst h.1, Int.le_trans h.2 hlast⟩⟩

theorem gregorian_lawful : gregorian.Lawful :=
  lawful_ofYears (by decide) (by decide) _

/-- In a lawful calendar only a time that is not ordinary can be without a date. -/
theorem Lawful.not_isOrdinary {cal : Calendar} (h : cal.Lawful) {t : Instant} {message : String}
    (ht : cal.dateTime t = .error message) : ¬ t.IsOrdinary := by
  intro hordinary
  obtain ⟨u, hu⟩ := h.covers hordinary
  cases ht.symm.trans hu

end Calendar

namespace Instant

/-! ## Writing -/

/-- A number with leading zeros up to the given width. -/
def padded (width n : Nat) : String :=
  let digits := toString n
  String.ofList (List.replicate (width - digits.length) '0') ++ digits

/-- Four digits inside 0 to 9999; outside of it a sign and at least four digits. -/
def renderYear (year : Int) : String :=
  if 0 ≤ year && year ≤ 9999 then padded 4 year.toNat
  else (if year < 0 then "-" else "+") ++ padded 4 year.natAbs

/-- Nothing for zero, else a point and the fewest of three, six or nine digits that are exact. -/
def renderFraction (nanos : Nat) : String :=
  if nanos == 0 then ""
  else if nanos % 1000000 == 0 then "." ++ padded 3 (nanos / 1000000)
  else if nanos % 1000 == 0 then "." ++ padded 6 (nanos / 1000)
  else "." ++ padded 9 nanos

def renderDate (t : Instant) : String :=
  let d := t.date
  renderYear d.year ++ "-" ++ padded 2 d.month ++ "-" ++ padded 2 d.day

/-- The seconds since the day began. -/
def clock (t : Instant) : Nat := (t.seconds % 86400).toNat

def hour (t : Instant) : Nat := t.clock / 3600

/-- Date and time of day, without an offset. A leap second is written as second 60. -/
def renderLocal (t : Instant) : String :=
  let second := t.clock % 60 + t.nanos / nanosPerSecond
  t.renderDate ++ "T" ++ padded 2 t.hour ++ ":" ++ padded 2 (t.clock / 60 % 60) ++ ":"
    ++ padded 2 second ++ renderFraction (t.nanos % nanosPerSecond)

def render (t : Instant) : String :=
  t.renderLocal ++ "+00:00"

/-- The instant in RFC 3339 with the letter of UTC. -/
def renderZulu (t : Instant) : String :=
  t.renderLocal ++ "Z"

/-! ## Reading

Blanks may stand in front of every number, separator and offset. A year has a sign and any number
of digits, or no sign and at most four. -/

/-- A reader of characters: what it read and what is left. -/
abbrev Reader (α : Type) := StateT (List Char) Option α

namespace Reader

def blanks : Reader Unit := modify (·.dropWhile isBlank)

/-- One character of a class. -/
def oneOf (p : Char → Bool) : Reader Char := do
  match ← get with
  | c :: rest => if p c then set rest; return c else failure
  | [] => failure

/-- Between one and `width` digits, as a number. -/
def digits (width : Option Nat) : Reader Nat := do
  let cs ← get
  let run := cs.takeWhile Char.isDigit
  let run := match width with
    | some n => run.take n
    | none => run
  if run.isEmpty then failure
  set (cs.drop run.length)
  return Text.decimalValue run

def year : Reader Int := do
  blanks
  match (← get).head? with
  | some '-' => modify List.tail; return -(← digits none : Nat)
  | some '+' => modify List.tail; return (← digits none : Nat)
  | _ => return (← digits (some 4) : Nat)

/-- A number of at most two digits, after blanks. -/
def two : Reader Nat := do
  blanks
  digits (some 2)

/-- A separator, after blanks. -/
def separator (c : Char) : Reader Unit := do
  blanks
  let _ ← oneOf (· == c)

/-- A fraction of a second in nanoseconds; digits after the ninth are dropped. -/
def fraction : Reader Nat := do
  match ← get with
  | '.' :: rest =>
    let run := (rest.takeWhile Char.isDigit).take 9
    set rest
    -- As many digits as `run` holds; it says below how far they are from nanoseconds.
    let n ← digits (some 9)
    modify (·.dropWhile Char.isDigit)
    return n * Nat.pow 10 (9 - run.length)
  | _ => return 0

/-- Exactly two digits. -/
def pair : Reader Nat := do
  let a ← oneOf Char.isDigit
  let b ← oneOf Char.isDigit
  return Text.decimalValue [a, b]

/-- The offset from UTC in seconds: a letter for UTC, or a sign, hours, and minutes with colons
or blanks between them. -/
def offset : Reader Int := do
  let cs ← get
  if (cs.take 3).map Char.toUpper = "UTC".toList then
    set (cs.drop 3)
    return 0
  match cs with
  | 'Z' :: rest | 'z' :: rest => set rest; return 0
  | sign :: rest =>
    unless sign == '+' || sign == '-' || sign == '\u2212' do failure
    set rest
    let hours ← pair
    modify (·.dropWhile fun c => c == ':' || isBlank c)
    let minutes ← pair
    unless minutes < 60 do failure
    let seconds : Int := hours * 3600 + minutes * 60
    -- The hours have no bound of their own.
    unless seconds < 86400 do failure
    return if sign == '+' then seconds else -seconds
  | [] => failure

def instant (cal : Calendar) : Reader Instant := do
  let y ← year
  separator '-'
  let m ← two
  separator '-'
  let d ← two
  let _ ← oneOf fun c => c == 'T' || c == 't' || c == ' '
  let hour ← two
  separator ':'
  let minute ← two
  separator ':'
  let second ← two
  let nanos ← fraction
  blanks
  let shift ← offset
  let day : Date := ⟨y, m, d⟩
  -- The parts are read first: a wrong separator and a wrong day are refused alike.
  unless day.isValid && hour < 24 && minute < 60 && second ≤ 60 do failure
  -- The calendar has to reach to the day as it is written, and to the instant that it stands for.
  unless (cal.dateTime ⟨day.toDay * 86400, 0⟩).isOk do failure
  -- Second 60 stays in its minute and is told by the nanoseconds.
  let leap := if second == 60 then 1 else 0
  let t : Instant := ⟨day.toDay * 86400 + hour * 3600 + minute * 60 + (second - leap : Nat) - shift,
    nanos + leap * nanosPerSecond⟩
  unless (cal.dateTime t).isOk do failure
  return t

end Reader

/-- Read an instant in RFC 3339, with blanks allowed between its parts. -/
def parse? (cal : Calendar) (s : String) : Option Instant :=
  match Reader.instant cal s.toList with
  | some (t, rest) => if rest.all isBlank then some t else none
  | none => none

end Instant

end SmaliView
