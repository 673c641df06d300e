import Tapestry.Text.Number

/-!
# Digests

The digest of a text is 32 bytes that change with any change of the text. The text is padded to
a whole number of blocks with its length at the end, and each block is mixed into eight words.
-/

namespace Tapestry.Sha256

/-- The words before the first block. -/
def start : Array UInt32 :=
  #[0x6a09e667, 0xbb67ae85, 0x3c6ef372, 0xa54ff53a, 0x510e527f, 0x9b05688c, 0x1f83d9ab, 0x5be0cd19]

/-- The word added in each round. -/
def constants : Array UInt32 :=
  #[0x428a2f98, 0x71374491, 0xb5c0fbcf, 0xe9b5dba5, 0x3956c25b, 0x59f111f1, 0x923f82a4, 0xab1c5ed5,
    0xd807aa98, 0x12835b01, 0x243185be, 0x550c7dc3, 0x72be5d74, 0x80deb1fe, 0x9bdc06a7, 0xc19bf174,
    0xe49b69c1, 0xefbe4786, 0x0fc19dc6, 0x240ca1cc, 0x2de92c6f, 0x4a7484aa, 0x5cb0a9dc, 0x76f988da,
    0x983e5152, 0xa831c66d, 0xb00327c8, 0xbf597fc7, 0xc6e00bf3, 0xd5a79147, 0x06ca6351, 0x14292967,
    0x27b70a85, 0x2e1b2138, 0x4d2c6dfc, 0x53380d13, 0x650a7354, 0x766a0abb, 0x81c2c92e, 0x92722c85,
    0xa2bfe8a1, 0xa81a664b, 0xc24b8b70, 0xc76c51a3, 0xd192e819, 0xd6990624, 0xf40e3585, 0x106aa070,
    0x19a4c116, 0x1e376c08, 0x2748774c, 0x34b0bcb5, 0x391c0cb3, 0x4ed8aa4a, 0x5b9cca4f, 0x682e6ff3,
    0x748f82ee, 0x78a5636f, 0x84c87814, 0x8cc70208, 0x90befffa, 0xa4506ceb, 0xbef9a3f7, 0xc67178f2]

/-- Turn a word to the right. -/
def turn (x : UInt32) (count : UInt32) : UInt32 := (x >>> count) ||| (x <<< (32 - count))

/-- A text with a one bit, zeros, and its length in bits, in whole blocks of 64 bytes. -/
def pad (t : Text) : Text :=
  let zeros := (119 - t.length % 64) % 64
  t ++ [0x80] ++ List.replicate zeros 0 ++ Number.bigEndian 8 (t.length * 8)

/-- The big-endian word at an index. -/
def wordAt (bytes : Array UInt8) (index : Nat) : UInt32 :=
  (List.range 4).foldl (fun w i => (w <<< 8) ||| (bytes.getD (index + i) 0).toUInt32) 0

/-- The sixteen words of a block and those mixed from them, one for each round. -/
def schedule (bytes : Array UInt8) (block : Nat) : Array UInt32 :=
  let first := (List.range 16).foldl (fun ws i => ws.push (wordAt bytes (block * 64 + i * 4))) #[]
  (List.range 48).foldl (fun ws i =>
    let a := ws.getD (i + 1) 0
    let b := ws.getD (i + 14) 0
    let low := turn a 7 ^^^ turn a 18 ^^^ (a >>> 3)
    let high := turn b 17 ^^^ turn b 19 ^^^ (b >>> 10)
    ws.push (ws.getD i 0 + low + ws.getD (i + 9) 0 + high)) first

/-- The eight words in work. -/
structure Words where
  a : UInt32
  b : UInt32
  c : UInt32
  d : UInt32
  e : UInt32
  f : UInt32
  g : UInt32
  h : UInt32

/-- One round with a constant and a word of the schedule. -/
def round (w : Words) (extra : UInt32) : Words :=
  let mixE := turn w.e 6 ^^^ turn w.e 11 ^^^ turn w.e 25
  let choice := (w.e &&& w.f) ^^^ ((~~~ w.e) &&& w.g)
  let first := w.h + mixE + choice + extra
  let mixA := turn w.a 2 ^^^ turn w.a 13 ^^^ turn w.a 22
  let majority := (w.a &&& w.b) ^^^ (w.a &&& w.c) ^^^ (w.b &&& w.c)
  { a := first + mixA + majority, b := w.a, c := w.b, d := w.c
    e := w.d + first, f := w.e, g := w.f, h := w.g }

/-- Mix one block into the words. -/
def mixBlock (bytes : Array UInt8) (words : Words) (block : Nat) : Words :=
  let ws := schedule bytes block
  let mixed := (List.range 64).foldl (fun w i => round w (constants.getD i 0 + ws.getD i 0)) words
  { a := words.a + mixed.a, b := words.b + mixed.b, c := words.c + mixed.c, d := words.d + mixed.d
    e := words.e + mixed.e, f := words.f + mixed.f, g := words.g + mixed.g, h := words.h + mixed.h }

/-- The digest of a text. -/
def digest (t : Text) : Text :=
  let bytes := (pad t).toArray
  let word (i : Nat) := start.getD i 0
  let first : Words :=
    { a := word 0, b := word 1, c := word 2, d := word 3, e := word 4, f := word 5, g := word 6, h := word 7 }
  let w := (List.range (bytes.size / 64)).foldl (mixBlock bytes) first
  [w.a, w.b, w.c, w.d, w.e, w.f, w.g, w.h].flatMap fun word => Number.bigEndian 4 word.toNat

end Tapestry.Sha256
