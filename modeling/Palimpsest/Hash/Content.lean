import Palimpsest.Text.Utf8

/-!
Content hashes: the name of a byte string. Equal bytes have equal hashes; that different bytes have
different ones is assumed by those who compare hashes instead of contents. In the byte strings words stand in
little-endian order, and strings behind their length, so that no string runs into what follows it. The hash is
XXH3 with 128 bits and seed 0: inputs of up to 16, 128 and 240 bytes and longer ones are each mixed in their
own way; arithmetic is modulo 2^64.
-/

namespace Palimpsest
namespace Bytes

/-- The `n` lowest bytes of a number, the lowest first. -/
def littleEndian : (n : Nat) → Nat → List UInt8
  | 0, _ => []
  | n + 1, x => UInt8.ofNat x :: littleEndian n (x / 256)

def word32 (x : UInt32) : List UInt8 := littleEndian 4 x.toNat

def word64 (x : UInt64) : List UInt8 := littleEndian 8 x.toNat

/-- A length or a count. -/
def count (n : Nat) : List UInt8 := littleEndian 8 n

def string (s : String) : List UInt8 := count s.utf8ByteSize ++ Utf8.bytes s

def hexDigit (n : Nat) : Char := if n < 10 then Char.ofNat (48 + n) else Char.ofNat (87 + n)

def hex (bytes : List UInt8) : String :=
  String.ofList (bytes.flatMap fun b => [hexDigit (b.toNat / 16), hexDigit (b.toNat % 16)])

end Bytes

namespace Xxh3

def prime32A : UInt64 := 0x9E3779B1
def prime32B : UInt64 := 0x85EBCA77
def prime32C : UInt64 := 0xC2B2AE3D
def primeA : UInt64 := 0x9E3779B185EBCA87
def primeB : UInt64 := 0xC2B2AE3D27D4EB4F
def primeC : UInt64 := 0x165667B19E3779F9
def primeD : UInt64 := 0x85EBCA77C2B2AE63
def primeE : UInt64 := 0x27D4EB2F165667C5
def mixPrimeA : UInt64 := 0x165667919E3779F9
def mixPrimeB : UInt64 := 0x9FB21C651E98DF25

/-- A mask for the lower half of a word. -/
def lowerHalf : UInt64 := 0xFFFFFFFF

/-- The key material that inputs are mixed with. -/
def secret : Array UInt8 := #[
  0xb8, 0xfe, 0x6c, 0x39, 0x23, 0xa4, 0x4b, 0xbe, 0x7c, 0x01, 0x81, 0x2c, 0xf7, 0x21, 0xad, 0x1c,
  0xde, 0xd4, 0x6d, 0xe9, 0x83, 0x90, 0x97, 0xdb, 0x72, 0x40, 0xa4, 0xa4, 0xb7, 0xb3, 0x67, 0x1f,
  0xcb, 0x79, 0xe6, 0x4e, 0xcc, 0xc0, 0xe5, 0x78, 0x82, 0x5a, 0xd0, 0x7d, 0xcc, 0xff, 0x72, 0x21,
  0xb8, 0x08, 0x46, 0x74, 0xf7, 0x43, 0x24, 0x8e, 0xe0, 0x35, 0x90, 0xe6, 0x81, 0x3a, 0x26, 0x4c,
  0x3c, 0x28, 0x52, 0xbb, 0x91, 0xc3, 0x00, 0xcb, 0x88, 0xd0, 0x65, 0x8b, 0x1b, 0x53, 0x2e, 0xa3,
  0x71, 0x64, 0x48, 0x97, 0xa2, 0x0d, 0xf9, 0x4e, 0x38, 0x19, 0xef, 0x46, 0xa9, 0xde, 0xac, 0xd8,
  0xa8, 0xfa, 0x76, 0x3f, 0xe3, 0x9c, 0x34, 0x3f, 0xf9, 0xdc, 0xbb, 0xc7, 0xc7, 0x0b, 0x4f, 0x1d,
  0x8a, 0x51, 0xe0, 0x4b, 0xcd, 0xb4, 0x59, 0x31, 0xc8, 0x9f, 0x7e, 0xc9, 0xd9, 0x78, 0x73, 0x64,
  0xea, 0xc5, 0xac, 0x83, 0x34, 0xd3, 0xeb, 0xc3, 0xc5, 0x81, 0xa0, 0xff, 0xfa, 0x13, 0x63, 0xeb,
  0x17, 0x0d, 0xdd, 0x51, 0xb7, 0xf0, 0xda, 0x49, 0xd3, 0x16, 0x55, 0x26, 0x29, 0xd4, 0x68, 0x9e,
  0x2b, 0x16, 0xbe, 0x58, 0x7d, 0x47, 0xa1, 0xfc, 0x8f, 0xf8, 0xb8, 0xd1, 0x7a, 0xd0, 0x31, 0xce,
  0x45, 0xcb, 0x3a, 0x8f, 0x95, 0x16, 0x04, 0x28, 0xaf, 0xd7, 0xfb, 0xca, 0xbb, 0x4b, 0x40, 0x7e]

/-- A word of 128 bits in two halves. -/
structure Wide where
  low : UInt64
  high : UInt64
deriving DecidableEq, Repr, Inhabited

/-- The full product. -/
def wideMul (a b : UInt64) : Wide :=
  let p := a.toNat * b.toNat
  ⟨UInt64.ofNat p, UInt64.ofNat (p / UInt64.size)⟩

/-- The two halves of the product, combined. -/
def foldMul (a b : UInt64) : UInt64 :=
  let p := wideMul a b
  p.low ^^^ p.high

/-- `n` bytes from `at_`, little-endian; bytes past the end count as zero. -/
def readBytes (data : Array UInt8) : (n at_ : Nat) → UInt64
  | 0, _ => 0
  | n + 1, at_ => (data.getD at_ 0).toUInt64 ||| (readBytes data n (at_ + 1) <<< 8)

def read64 (data : Array UInt8) (at_ : Nat) : UInt64 := readBytes data 8 at_

def read32 (data : Array UInt8) (at_ : Nat) : UInt64 := readBytes data 4 at_

def xorShift (x : UInt64) (n : UInt64) : UInt64 := x ^^^ (x >>> n)

def avalanche (h : UInt64) : UInt64 := xorShift (xorShift h 37 * mixPrimeA) 32

def shortAvalanche (h : UInt64) : UInt64 :=
  xorShift (xorShift (xorShift h 33 * primeB) 29 * primeC) 32

/-- The bytes of a word of `n` bytes in reverse order. -/
def swapBytes (n : Nat) (x : UInt64) : UInt64 :=
  readBytes (Bytes.littleEndian n x.toNat).reverse.toArray n 0

def rotateLeft32 (x : UInt64) (n : UInt64) : UInt64 :=
  ((x <<< n) ||| (x >>> (32 - n))) &&& lowerHalf

def hashEmpty : Wide :=
  ⟨shortAvalanche (read64 secret 64 ^^^ read64 secret 72),
   shortAvalanche (read64 secret 80 ^^^ read64 secret 88)⟩

/-- One to three bytes. -/
def hash1to3 (data : Array UInt8) : Wide :=
  let n := data.size
  let first := (data.getD 0 0).toUInt64
  let middle := (data.getD (n / 2) 0).toUInt64
  let last := (data.getD (n - 1) 0).toUInt64
  let low := (first <<< 16) ||| (middle <<< 24) ||| last ||| (UInt64.ofNat n <<< 8)
  let high := rotateLeft32 (swapBytes 4 low) 13
  ⟨shortAvalanche (low ^^^ (read32 secret 0 ^^^ read32 secret 4)),
   shortAvalanche (high ^^^ (read32 secret 8 ^^^ read32 secret 12))⟩

def hash4to8 (data : Array UInt8) : Wide :=
  let n := data.size
  let word := read32 data 0 + (read32 data (n - 4) <<< 32)
  let keyed := word ^^^ (read64 secret 16 ^^^ read64 secret 24)
  let p := wideMul keyed (primeA + (UInt64.ofNat n <<< 2))
  let high := p.high + (p.low <<< 1)
  let low := p.low ^^^ (high >>> 3)
  ⟨xorShift (xorShift low 35 * mixPrimeB) 28, avalanche high⟩

def hash9to16 (data : Array UInt8) : Wide :=
  let n := data.size
  let flipLow := read64 secret 32 ^^^ read64 secret 40
  let flipHigh := read64 secret 48 ^^^ read64 secret 56
  let first := read64 data 0
  let last := read64 data (n - 8)
  let p := wideMul (first ^^^ last ^^^ flipLow) primeA
  let low := p.low + (UInt64.ofNat (n - 1) <<< 54)
  let keyed := last ^^^ flipHigh
  let high := p.high + keyed + (keyed &&& lowerHalf) * (prime32B - 1)
  let q := wideMul (low ^^^ swapBytes 8 high) primeB
  ⟨avalanche q.low, avalanche (q.high + high * primeB)⟩

/-- Sixteen bytes mixed with sixteen bytes of the secret. -/
def mix16 (data : Array UInt8) (at_ key : Nat) : UInt64 :=
  foldMul (read64 data at_ ^^^ read64 secret key) (read64 data (at_ + 8) ^^^ read64 secret (key + 8))

/-- Two pieces of sixteen bytes taken into the two halves of `acc`. -/
def mix32 (acc : Wide) (data : Array UInt8) (a b key : Nat) : Wide :=
  ⟨(acc.low + mix16 data a key) ^^^ (read64 data b + read64 data (b + 8)),
   (acc.high + mix16 data b (key + 16)) ^^^ (read64 data a + read64 data (a + 8))⟩

def finishMiddle (acc : Wide) (n : Nat) : Wide :=
  ⟨avalanche (acc.low + acc.high),
   0 - avalanche (acc.low * primeA + acc.high * primeD + UInt64.ofNat n * primeB)⟩

/-- Pairs of pieces, one from each end of the input, the innermost first. -/
def hash17to128 (data : Array UInt8) : Wide :=
  let n := data.size
  let pairs := (n - 1) / 32
  let acc := (List.range (pairs + 1)).reverse.foldl
    (fun acc i => mix32 acc data (16 * i) (n - 16 * (i + 1)) (32 * i)) ⟨UInt64.ofNat n * primeA, 0⟩
  finishMiddle acc n

def hash129to240 (data : Array UInt8) : Wide :=
  let n := data.size
  let step (shift : Nat) (acc : Wide) (i : Nat) := mix32 acc data (32 * i) (32 * i + 16) (32 * i - shift)
  let acc := (List.range 4).foldl (step 0) ⟨UInt64.ofNat n * primeA, 0⟩
  let acc : Wide := ⟨avalanche acc.low, avalanche acc.high⟩
  let acc := (List.range' 4 (n / 32 - 4)).foldl (step 125) acc
  finishMiddle (mix32 acc data (n - 16) (n - 32) 103) n

/-- The eight lanes that long inputs are accumulated in. -/
def initialLanes : List UInt64 :=
  [prime32C, primeA, primeB, primeC, primeD, prime32B, primeE, prime32A]

/-- What a stripe of 64 bytes adds to its lanes: to each the product of its keyed halves, and the word of
its neighbour. -/
def addStripe (data : Array UInt8) (at_ key : Nat) (lanes : List UInt64) : List UInt64 :=
  lanes.mapIdx fun i lane =>
    let keyed := read64 data (at_ + 8 * i) ^^^ read64 secret (key + 8 * i)
    let neighbour := if i % 2 = 0 then i + 1 else i - 1
    lane + read64 data (at_ + 8 * neighbour) + (keyed &&& lowerHalf) * (keyed >>> 32)

/-- `n` stripes from `at_` on, each with the key eight bytes further. -/
def addStripes (data : Array UInt8) (at_ n : Nat) (lanes : List UInt64) : List UInt64 :=
  (List.range n).foldl (fun lanes i => addStripe data (at_ + 64 * i) (8 * i) lanes) lanes

def scramble (lanes : List UInt64) : List UInt64 :=
  lanes.mapIdx fun i lane => (xorShift lane 47 ^^^ read64 secret (128 + 8 * i)) * prime32A

/-- The lanes in pairs, each folded with its part of the secret. -/
def foldLanes (key : Nat) (start : UInt64) : List UInt64 → UInt64
  | a :: b :: lanes =>
    foldLanes (key + 16) (start + foldMul (a ^^^ read64 secret key) (b ^^^ read64 secret (key + 8))) lanes
  | _ => avalanche start

def hashLong (data : Array UInt8) : Wide :=
  let n := data.size
  let blocks := (n - 1) / 1024
  let lanes := (List.range blocks).foldl
    (fun lanes i => scramble (addStripes data (1024 * i) 16 lanes)) initialLanes
  let lanes := addStripes data (1024 * blocks) ((n - 1 - 1024 * blocks) / 64) lanes
  let lanes := addStripe data (n - 64) 121 lanes
  let size := UInt64.ofNat n
  ⟨foldLanes 11 (size * primeA) lanes, foldLanes 117 (~~~(size * primeB)) lanes⟩

def hash (data : Array UInt8) : Wide :=
  let n := data.size
  if n = 0 then hashEmpty
  else if n ≤ 3 then hash1to3 data
  else if n ≤ 8 then hash4to8 data
  else if n ≤ 16 then hash9to16 data
  else if n ≤ 128 then hash17to128 data
  else if n ≤ 240 then hash129to240 data
  else hashLong data

end Xxh3

structure ContentHash where
  low : UInt64
  high : UInt64
deriving DecidableEq, Repr, Inhabited

namespace ContentHash

def ofBytes (data : List UInt8) : ContentHash :=
  let h := Xxh3.hash data.toArray
  ⟨h.low, h.high⟩

def ofString (s : String) : ContentHash := ofBytes (Utf8.bytes s)

/-- The sixteen bytes of a hash, the lowest first. -/
def bytes (h : ContentHash) : List UInt8 := Bytes.word64 h.low ++ Bytes.word64 h.high

def hex (h : ContentHash) : String := Bytes.hex h.bytes

/-- A hash by its first two bytes. -/
def brief (h : ContentHash) : String := "ContentHash(" ++ Bytes.hex (h.bytes.take 2) ++ "..)"

end ContentHash

end Palimpsest
