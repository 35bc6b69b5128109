import Inkwell.Text.Basic

/-!
# Digests

The SHA-256 digest of a text: the text is padded to whole blocks of sixty-four bytes, and every
block changes a state of eight words in sixty-four rounds.
-/

namespace Inkwell

namespace Digest

structure State where
  a : UInt32
  b : UInt32
  c : UInt32
  d : UInt32
  e : UInt32
  f : UInt32
  g : UInt32
  h : UInt32

def start : State where
  a := 0x6a09e667
  b := 0xbb67ae85
  c := 0x3c6ef372
  d := 0xa54ff53a
  e := 0x510e527f
  f := 0x9b05688c
  g := 0x1f83d9ab
  h := 0x5be0cd19

def roundConstants : List UInt32 :=
  [0x428a2f98, 0x71374491, 0xb5c0fbcf, 0xe9b5dba5, 0x3956c25b, 0x59f111f1, 0x923f82a4, 0xab1c5ed5,
    0xd807aa98, 0x12835b01, 0x243185be, 0x550c7dc3, 0x72be5d74, 0x80deb1fe, 0x9bdc06a7, 0xc19bf174,
    0xe49b69c1, 0xefbe4786, 0x0fc19dc6, 0x240ca1cc, 0x2de92c6f, 0x4a7484aa, 0x5cb0a9dc, 0x76f988da,
    0x983e5152, 0xa831c66d, 0xb00327c8, 0xbf597fc7, 0xc6e00bf3, 0xd5a79147, 0x06ca6351, 0x14292967,
    0x27b70a85, 0x2e1b2138, 0x4d2c6dfc, 0x53380d13, 0x650a7354, 0x766a0abb, 0x81c2c92e, 0x92722c85,
    0xa2bfe8a1, 0xa81a664b, 0xc24b8b70, 0xc76c51a3, 0xd192e819, 0xd6990624, 0xf40e3585, 0x106aa070,
    0x19a4c116, 0x1e376c08, 0x2748774c, 0x34b0bcb5, 0x391c0cb3, 0x4ed8aa4a, 0x5b9cca4f, 0x682e6ff3,
    0x748f82ee, 0x78a5636f, 0x84c87814, 0x8cc70208, 0x90befffa, 0xa4506ceb, 0xbef9a3f7, 0xc67178f2]

def rotate (w n : UInt32) : UInt32 := (w >>> n) ||| (w <<< (32 - n))

/-- The words of a block continued by `n` more; the words are given latest first. -/
def extend : Nat → List UInt32 → List UInt32
  | 0, ws => ws
  | n + 1, ws =>
    let old := ws.getD 14 0
    let recent := ws.getD 1 0
    let next := ws.getD 15 0 + (rotate old 7 ^^^ rotate old 18 ^^^ (old >>> 3)) + ws.getD 6 0 +
      (rotate recent 17 ^^^ rotate recent 19 ^^^ (recent >>> 10))
    extend n (next :: ws)

def round (s : State) (k w : UInt32) : State :=
  let choice := (s.e &&& s.f) ^^^ ((~~~s.e) &&& s.g)
  let majority := (s.a &&& s.b) ^^^ (s.a &&& s.c) ^^^ (s.b &&& s.c)
  let first := s.h + (rotate s.e 6 ^^^ rotate s.e 11 ^^^ rotate s.e 25) + choice + k + w
  let second := (rotate s.a 2 ^^^ rotate s.a 13 ^^^ rotate s.a 22) + majority
  { a := first + second, b := s.a, c := s.b, d := s.c, e := s.d + first, f := s.e, g := s.f,
    h := s.g }

def compress (s : State) (words : List UInt32) : State :=
  let ws := (extend 48 words.reverse).reverse
  let t := (roundConstants.zip ws).foldl (fun s (k, w) => round s k w) s
  { a := s.a + t.a, b := s.b + t.b, c := s.c + t.c, d := s.d + t.d
    e := s.e + t.e, f := s.f + t.f, g := s.g + t.g, h := s.h + t.h }

def word (a b c d : UInt8) : UInt32 :=
  (a.toUInt32 <<< 24) ||| (b.toUInt32 <<< 16) ||| (c.toUInt32 <<< 8) ||| d.toUInt32

def wordBytes (w : UInt32) : List UInt8 :=
  [(w >>> 24).toUInt8, (w >>> 16).toUInt8, (w >>> 8).toUInt8, w.toUInt8]

/-- The words that bytes make up, four each, in reverse order behind those found. -/
def words (found : List UInt32) : List UInt8 → List UInt32
  | a :: b :: c :: d :: rest => words (word a b c d :: found) rest
  | _ => found.reverse

/-- The state after all blocks, every round of which takes sixteen words. -/
def absorb : Nat → State → List UInt32 → State
  | 0, s, _ => s
  | rounds + 1, s, ws => absorb rounds (compress s (ws.take 16)) (ws.drop 16)

/-- The bytes of a text padded to whole blocks: a mark, zeros, and the number of bits. -/
def pad (bs : List UInt8) : List UInt8 :=
  let size := bs.length
  let bits := (8 * size).toUInt64
  bs ++ ((128 : UInt8) :: List.replicate ((119 - size % 64) % 64) 0 ++
    wordBytes (bits >>> 32).toUInt32 ++ wordBytes bits.toUInt32)

end Digest

def Text.digest (t : Text) : Text :=
  let ws := Digest.words [] (Digest.pad t.bytes)
  let s := Digest.absorb (ws.length / 16) Digest.start ws
  Text.ofBytes ([s.a, s.b, s.c, s.d, s.e, s.f, s.g, s.h].flatMap Digest.wordBytes)

end Inkwell
