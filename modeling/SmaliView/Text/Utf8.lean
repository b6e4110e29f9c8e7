/-!
# UTF-8

`bytes` writes a string as UTF-8. `decodeLossy` reads any bytes: a character for every
well-formed sequence and one replacement character U+FFFD for every maximal part of a
sequence that cannot be completed.
-/

namespace SmaliView.Text

/-- The content of a file, or the output of a program. -/
abbrev Bytes := List UInt8

def bytes (s : String) : Bytes :=
  s.toUTF8.data.toList

def replacement : Char := '\uFFFD'

/-- Where a UTF-8 reader stands between two bytes. -/
inductive Utf8State where
  /-- Between characters. -/
  | start
  /-- `owed + 1` continuation bytes are missing, the next one lies in `low … high`, and the bits
  read so far are `code`. -/
  | inside (owed : Nat) (low high : Nat) (code : Nat)
deriving DecidableEq, Repr

namespace Utf8State

/-- What the first byte of a character announces; `none` for a byte that starts none. -/
def first (b : Nat) : Option (Option Char × Utf8State) :=
  if b < 0x80 then some (some (Char.ofNat b), .start)
  -- A continuation byte, or the start of a form longer than it has to be.
  else if b < 0xC2 then none
  else if b < 0xE0 then some (none, .inside 0 0x80 0xBF (b - 0xC0))
  -- The narrower ranges keep out longer forms, surrogates and what is past U+10FFFF.
  else if b = 0xE0 then some (none, .inside 1 0xA0 0xBF 0)
  else if b = 0xED then some (none, .inside 1 0x80 0x9F (b - 0xE0))
  else if b < 0xF0 then some (none, .inside 1 0x80 0xBF (b - 0xE0))
  else if b = 0xF0 then some (none, .inside 2 0x90 0xBF 0)
  else if b < 0xF4 then some (none, .inside 2 0x80 0xBF (b - 0xF0))
  else if b = 0xF4 then some (none, .inside 2 0x80 0x8F (b - 0xF0))
  else none

/-- A byte read between characters: the character it completes or the replacement for it. -/
def begin (b : Nat) : List Char × Utf8State :=
  match first b with
  | some (c, q) => (c.toList, q)
  | none => ([replacement], .start)

/-- A byte read in any state: the characters it completes and the state after it. A byte that
does not continue the sequence closes it with a replacement and starts anew. -/
def step : Utf8State → Nat → List Char × Utf8State
  | .start, b => begin b
  | .inside owed low high code, b =>
    if low ≤ b ∧ b ≤ high then
      match owed with
      | 0 => ([Char.ofNat (code * 64 + (b - 0x80))], .start)
      | n + 1 => ([], .inside n 0x80 0xBF (code * 64 + (b - 0x80)))
    else
      match begin b with
      | (cs, q) => (replacement :: cs, q)

/-- What is left at the end: a replacement for a sequence that was not completed. -/
def finish : Utf8State → List Char
  | .start => []
  | .inside .. => [replacement]

end Utf8State

/-- Read bytes from a given state, with the characters read so far in reverse order. -/
def decodeFrom (q : Utf8State) (bs : Bytes) (acc : List Char) : List Char :=
  match bs with
  | [] => (q.finish.reverse ++ acc).reverse
  | b :: bs =>
    match q.step b.toNat with
    | (cs, q') => decodeFrom q' bs (cs.reverse ++ acc)

/-- Read bytes as UTF-8, replacing what is malformed. -/
def decodeLossy (bs : Bytes) : String :=
  String.ofList (decodeFrom .start bs [])

def decode? (bs : Bytes) : Option String :=
  String.fromUTF8? ⟨bs.toArray⟩

end SmaliView.Text
