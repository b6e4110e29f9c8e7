import SmaliView.Text.Utf8
import SmaliView.Word

/-!
# Content hashes

Editor text is told apart by its 128-bit XXH3 hash with seed 0 and the default secret. The
algorithm mixes words of 64 bits; inputs up to 16, up to 128, up to 240 and of more bytes each
have their own way through it.
-/

namespace SmaliView

structure ContentHash where
  low : UInt64
  high : UInt64
deriving DecidableEq, Repr, Inhabited

namespace Xxh3

/-! ## Words and multiplication -/

def byte (data : ByteArray) (i : Nat) : UInt8 :=
  if h : i < data.size then data[i] else 0

/-- The 32-bit word at an offset, lowest byte first, widened. -/
def word32 (data : ByteArray) (i : Nat) : UInt64 :=
  (byte data i).toUInt64 ||| ((byte data (i + 1)).toUInt64 <<< 8)
    ||| ((byte data (i + 2)).toUInt64 <<< 16) ||| ((byte data (i + 3)).toUInt64 <<< 24)

/-- The 64-bit word at an offset, lowest byte first. -/
def word64 (data : ByteArray) (i : Nat) : UInt64 :=
  word32 data i ||| (word32 data (i + 4) <<< 32)

/-- The bytes of a 64-bit word in the other order. -/
def swap64 (x : UInt64) : UInt64 :=
  (List.range 8).foldl (fun acc i => (acc <<< 8) ||| ((x >>> (8 * i).toUInt64) &&& 0xFF)) 0

/-- The bytes of the low 32 bits in the other order. -/
def swap32 (x : UInt64) : UInt64 :=
  swap64 x >>> 32

/-- The full product of two words, low half first. -/
def product (a b : UInt64) : UInt64 × UInt64 :=
  let n := a.toNat * b.toNat
  (n.toUInt64, (n / wordSize 64).toUInt64)

/-- The two halves of a product, combined. -/
def fold (a b : UInt64) : UInt64 :=
  let (low, high) := product a b
  low ^^^ high

def prime32a : UInt64 := 0x9E3779B1
def prime32b : UInt64 := 0x85EBCA77
def prime32c : UInt64 := 0xC2B2AE3D
def prime64a : UInt64 := 0x9E3779B185EBCA87
def prime64b : UInt64 := 0xC2B2AE3D27D4EB4F
def prime64c : UInt64 := 0x165667B19E3779F9
def prime64d : UInt64 := 0x85EBCA77C2B2AE63
def prime64e : UInt64 := 0x27D4EB2F165667C5
def mixA : UInt64 := 0x165667919E3779F9
def mixB : UInt64 := 0x9FB21C651E98DF25

/-- The default secret: 192 bytes. -/
def secret : ByteArray := ⟨#[
  0xb8, 0xfe, 0x6c, 0x39, 0x23, 0xa4, 0x4b, 0xbe, 0x7c, 0x01, 0x81, 0x2c, 0xf7, 0x21, 0xad, 0x1c,
  0xde, 0xd4, 0x6d, 0xe9, 0x83, 0x90, 0x97, 0xdb, 0x72, 0x40, 0xa4, 0xa4, 0xb7, 0xb3, 0x67, 0x1f,
  0xcb, 0x79, 0xe6, 0x4e, 0xcc, 0xc0, 0xe5, 0x78, 0x82, 0x5a, 0xd0, 0x7d, 0xcc, 0xff, 0x72, 0x21,
  0xb8, 0x08, 0x46, 0x74, 0xf7, 0x43, 0x24, 0x8e, 0xe0, 0x35, 0x90, 0xe6, 0x81, 0x3a, 0x26, 0x4c,
  0x3c, 0x28, 0x52, 0xbb, 0x91, 0xc3, 0x00, 0xcb, 0x88, 0xd0, 0x65, 0x8b, 0x1b, 0x53, 0x2e, 0xa3,
  0x71, 0x64, 0x48, 0x97, 0xa2, 0x0d, 0xf9, 0x4e, 0x38, 0x19, 0xef, 0x46, 0xa9, 0xde, 0xac, 0xd8,
  0xa8, 0xfa, 0x76, 0x3f, 0xe3, 0x9c, 0x34, 0x3f, 0xf9, 0xdc, 0xbb, 0xc7, 0xc7, 0x0b, 0x4f, 0x1d,
  0x8a, 0x51, 0xe0, 0x4b, 0xcd, 0xb4, 0x59, 0x31, 0xc8, 0x9f, 0x7e, 0xc9, 0xd9, 0x78, 0x73, 0x64,
  0xea, 0xc5, 0xac, 0x83, 0x34, 0xd3, 0xeb, 0xc3, 0xc5, 0x81, 0xa0, 0xff, 0xfa, 0x13, 0x63, 0xeb,
  0x17, 0x0d, 0xdd, 0x51, 0xb7, 0xf0, 0xda, 0x49, 0xd3, 0x16, 0x55, 0x26, 0x29, 0xd4, 0x68, 0x9e,
  0x2b, 0x16, 0xbe, 0x58, 0x7d, 0x47, 0xa1, 0xfc, 0x8f, 0xf8, 0xb8, 0xd1, 0x7a, 0xd0, 0x31, 0xce,
  0x45, 0xcb, 0x3a, 0x8f, 0x95, 0x16, 0x04, 0x28, 0xaf, 0xd7, 0xfb, 0xca, 0xbb, 0x4b, 0x40, 0x7e]⟩

def key64 (i : Nat) : UInt64 := word64 secret i

/-- The final mixing of short inputs. -/
def avalanche64 (h : UInt64) : UInt64 :=
  let h := (h ^^^ (h >>> 33)) * prime64b
  let h := (h ^^^ (h >>> 29)) * prime64c
  h ^^^ (h >>> 32)

/-- The final mixing of longer inputs. -/
def avalanche (h : UInt64) : UInt64 :=
  let h := (h ^^^ (h >>> 37)) * mixA
  h ^^^ (h >>> 32)

/-! ## Up to sixteen bytes -/

def hashEmpty : ContentHash :=
  ⟨avalanche64 (key64 64 ^^^ key64 72), avalanche64 (key64 80 ^^^ key64 88)⟩

/-- One to three bytes: three of them and the length make one word. -/
def hashTiny (data : ByteArray) : ContentHash :=
  let n := data.size
  let first := (byte data 0).toUInt64
  let middle := (byte data (n / 2)).toUInt64
  let last := (byte data (n - 1)).toUInt64
  let low := (first <<< 16) ||| (middle <<< 24) ||| last ||| (n.toUInt64 <<< 8)
  let swapped := swap32 low
  let high := ((swapped <<< 13) ||| (swapped >>> 19)) &&& 0xFFFFFFFF
  ⟨avalanche64 (low ^^^ (word32 secret 0 ^^^ word32 secret 4)),
   avalanche64 (high ^^^ (word32 secret 8 ^^^ word32 secret 12))⟩

/-- Four to eight bytes: the first and the last four, which may overlap. -/
def hashSmall (data : ByteArray) : ContentHash :=
  let n := data.size
  let keyed := (word32 data 0 + (word32 data (n - 4) <<< 32)) ^^^ (key64 16 ^^^ key64 24)
  let (low, high) := product keyed (prime64a + (n.toUInt64 <<< 2))
  let high := high + (low <<< 1)
  let low := low ^^^ (high >>> 3)
  let low := (low ^^^ (low >>> 35)) * mixB
  ⟨low ^^^ (low >>> 28), avalanche high⟩

/-- Nine to sixteen bytes: the first and the last eight, which may overlap. -/
def hashMedium (data : ByteArray) : ContentHash :=
  let n := data.size
  let first := word64 data 0
  let last := word64 data (n - 8)
  let (low, high) := product (first ^^^ last ^^^ (key64 32 ^^^ key64 40)) prime64a
  let low := low + ((n - 1).toUInt64 <<< 54)
  let last := last ^^^ (key64 48 ^^^ key64 56)
  let high := high + last + (last &&& 0xFFFFFFFF) * (prime32b - 1)
  let low := low ^^^ swap64 high
  let (low', high') := product low prime64b
  ⟨avalanche low', avalanche (high' + high * prime64b)⟩

/-! ## Up to 240 bytes -/

/-- Sixteen bytes mixed with sixteen bytes of the secret. -/
def mix16 (data : ByteArray) (i k : Nat) : UInt64 :=
  fold (word64 data i ^^^ key64 k) (word64 data (i + 8) ^^^ key64 (k + 8))

/-- Two runs of sixteen bytes added to the accumulators. -/
def mix32 (data : ByteArray) (acc : UInt64 × UInt64) (i j k : Nat) : UInt64 × UInt64 :=
  -- Each run is mixed into one accumulator and added, unmixed, to the other.
  ((acc.1 + mix16 data i k) ^^^ (word64 data j + word64 data (j + 8)),
   (acc.2 + mix16 data j (k + 16)) ^^^ (word64 data i + word64 data (i + 8)))

/-- The accumulators of a medium input, brought together. -/
def finishMiddle (n : Nat) (acc : UInt64 × UInt64) : ContentHash :=
  ⟨avalanche (acc.1 + acc.2),
   0 - avalanche (acc.1 * prime64a + acc.2 * prime64d + n.toUInt64 * prime64b)⟩

/-- 17 to 128 bytes: pairs of runs from both ends, the innermost first. -/
def hashTo128 (data : ByteArray) : ContentHash :=
  let n := data.size
  let rounds := (n - 1) / 32
  -- The fold goes from the right, so the runs in the middle come first.
  let acc := (List.range (rounds + 1)).foldr
    (fun r acc => mix32 data acc (16 * r) (n - 16 * (r + 1)) (32 * r)) (n.toUInt64 * prime64a, 0)
  finishMiddle n acc

/-- 129 to 240 bytes: runs of 32 bytes from the start, four of them before the accumulators are
mixed, then the last 32 bytes. -/
def hashTo240 (data : ByteArray) : ContentHash :=
  let n := data.size
  let acc := (List.range 4).foldl
    (fun acc r => mix32 data acc (32 * r) (32 * r + 16) (32 * r)) (n.toUInt64 * prime64a, 0)
  let acc := (avalanche acc.1, avalanche acc.2)
  let acc := (List.range (n / 32 - 4)).foldl
    -- The second pass reads the secret three bytes further on.
    (fun acc r => mix32 data acc (32 * (r + 4)) (32 * (r + 4) + 16) (3 + 32 * r)) acc
  finishMiddle n (mix32 data acc (n - 16) (n - 32) 103)

/-! ## Long inputs -/

/-- The eight accumulators of a long input before its first byte. -/
def startLanes : Array UInt64 :=
  #[prime32c, prime64a, prime64b, prime64c, prime64d, prime32b, prime64e, prime32a]

def lane (acc : Array UInt64) (i : Nat) : UInt64 := acc.getD i 0

/-- Add 64 bytes to the lanes. -/
def accumulate (data : ByteArray) (acc : Array UInt64) (i k : Nat) : Array UInt64 :=
  (Array.range 8).map fun j =>
    -- The bytes themselves go to the lane beside the one they are multiplied for.
    let neighbour := if j % 2 == 0 then j + 1 else j - 1
    let keyed : UInt64 := word64 data (i + 8 * j) ^^^ key64 (k + 8 * j)
    let crossed : UInt64 := (keyed &&& (0xFFFFFFFF : UInt64)) * (keyed >>> 32)
    lane acc j + word64 data (i + 8 * neighbour) + crossed

/-- Mix the lanes at the end of a block. -/
def scramble (acc : Array UInt64) : Array UInt64 :=
  (Array.range 8).map fun j =>
    let x := lane acc j
    (x ^^^ (x >>> 47) ^^^ key64 (128 + 8 * j)) * prime32a

/-- Add a number of 64-byte stripes that start at an offset. -/
def stripes (data : ByteArray) (acc : Array UInt64) (start count : Nat) : Array UInt64 :=
  (List.range count).foldl (fun acc s => accumulate data acc (start + 64 * s) (8 * s)) acc

def mergeLanes (acc : Array UInt64) (k : Nat) (start : UInt64) : UInt64 :=
  avalanche ((List.range 4).foldl (fun sum i =>
    sum + fold (lane acc (2 * i) ^^^ key64 (k + 16 * i))
      (lane acc (2 * i + 1) ^^^ key64 (k + 16 * i + 8))) start)

/-- More than 240 bytes: blocks of 16 stripes of 64 bytes, and the last 64 bytes once more. -/
def hashLong (data : ByteArray) : ContentHash :=
  let n := data.size
  -- Of an input of whole blocks the last one is not scrambled.
  let blocks := (n - 1) / 1024
  let acc := (List.range blocks).foldl
    (fun acc b => scramble (stripes data acc (1024 * b) 16)) startLanes
  let acc := stripes data acc (1024 * blocks) ((n - 1 - 1024 * blocks) / 64)
  let acc := accumulate data acc (n - 64) 121
  ⟨mergeLanes acc 11 (n.toUInt64 * prime64a),
   mergeLanes acc 117 (~~~ (n.toUInt64 * prime64b))⟩

def hash (data : ByteArray) : ContentHash :=
  let n := data.size
  if n == 0 then hashEmpty
  else if n ≤ 3 then hashTiny data
  else if n ≤ 8 then hashSmall data
  else if n ≤ 16 then hashMedium data
  else if n ≤ 128 then hashTo128 data
  else if n ≤ 240 then hashTo240 data
  else hashLong data

end Xxh3

namespace ContentHash

def ofText (s : String) : ContentHash :=
  Xxh3.hash s.toUTF8

def wordBytes (x : UInt64) : List UInt8 :=
  (List.range 8).map fun i => (x >>> (8 * i).toUInt64).toUInt8

def toBytes (h : ContentHash) : List UInt8 :=
  wordBytes h.low ++ wordBytes h.high

/-- The word with the given bytes, lowest first. -/
def wordOf (bs : List UInt8) : UInt64 :=
  bs.foldr (fun b x => (x <<< 8) ||| b.toUInt64) 0

/-- The hash with the given bytes, lowest first. -/
def ofBytes (bs : List UInt8) : ContentHash :=
  ⟨wordOf (bs.take 8), wordOf ((bs.drop 8).take 8)⟩

def hexByte (b : UInt8) : String :=
  let digit (n : Nat) : Char := if n < 10 then Char.ofNat (48 + n) else Char.ofNat (87 + n)
  String.ofList [digit (b.toNat / 16), digit (b.toNat % 16)]

def render (h : ContentHash) : String :=
  String.join (h.toBytes.map hexByte)

/-- The first two bytes in hexadecimal, for logs. -/
def abbreviated (h : ContentHash) : String :=
  "ContentHash(" ++ String.join ((h.toBytes.take 2).map hexByte) ++ "..)"

end ContentHash

end SmaliView
