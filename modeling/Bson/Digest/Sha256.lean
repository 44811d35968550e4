import Bson.Bytes

/-!
# SHA-256

The hash function of FIPS 180-4 on byte strings: `Sha256.digest` pads the message to whole blocks of
64 bytes (`pad`), and folds `compress` over the blocks. The message schedule is kept as a window of
the sixteen words that the next one is computed from.
-/

namespace Bson.Sha256

def roundConstants : List UInt32 :=
  [0x428a2f98, 0x71374491, 0xb5c0fbcf, 0xe9b5dba5, 0x3956c25b, 0x59f111f1, 0x923f82a4, 0xab1c5ed5,
   0xd807aa98, 0x12835b01, 0x243185be, 0x550c7dc3, 0x72be5d74, 0x80deb1fe, 0x9bdc06a7, 0xc19bf174,
   0xe49b69c1, 0xefbe4786, 0x0fc19dc6, 0x240ca1cc, 0x2de92c6f, 0x4a7484aa, 0x5cb0a9dc, 0x76f988da,
   0x983e5152, 0xa831c66d, 0xb00327c8, 0xbf597fc7, 0xc6e00bf3, 0xd5a79147, 0x06ca6351, 0x14292967,
   0x27b70a85, 0x2e1b2138, 0x4d2c6dfc, 0x53380d13, 0x650a7354, 0x766a0abb, 0x81c2c92e, 0x92722c85,
   0xa2bfe8a1, 0xa81a664b, 0xc24b8b70, 0xc76c51a3, 0xd192e819, 0xd6990624, 0xf40e3585, 0x106aa070,
   0x19a4c116, 0x1e376c08, 0x2748774c, 0x34b0bcb5, 0x391c0cb3, 0x4ed8aa4a, 0x5b9cca4f, 0x682e6ff3,
   0x748f82ee, 0x78a5636f, 0x84c87814, 0x8cc70208, 0x90befffa, 0xa4506ceb, 0xbef9a3f7, 0xc67178f2]

/-- the eight words of the chaining value -/
structure Chain where
  a : UInt32
  b : UInt32
  c : UInt32
  d : UInt32
  e : UInt32
  f : UInt32
  g : UInt32
  h : UInt32

/-- the chaining value before the first block -/
def start : Chain :=
  ⟨0x6a09e667, 0xbb67ae85, 0x3c6ef372, 0xa54ff53a, 0x510e527f, 0x9b05688c, 0x1f83d9ab, 0x5be0cd19⟩

/-- rotation to the right by `n` places, `0 < n < 32` -/
def rotate (x n : UInt32) : UInt32 := (x >>> n) ||| (x <<< (32 - n))

/-- the word of four bytes, most significant first -/
def word (bs : Bytes) : UInt32 := bs.foldl (fun n b => (n <<< 8) ||| b.toUInt32) 0

def wordBytes (n : UInt32) : Bytes := (Bytes.ofNat 4 n.toNat).reverse

def nextWord (window : List UInt32) : UInt32 :=
  let entry (i : Nat) : UInt32 := window.getD i 0
  let x := entry 1
  let y := entry 14
  entry 0 + (rotate x 7 ^^^ rotate x 18 ^^^ (x >>> 3)) + entry 9
    + (rotate y 17 ^^^ rotate y 19 ^^^ (y >>> 10))

def round (s : Chain) (w k : UInt32) : Chain :=
  let choice := (s.e &&& s.f) ^^^ (~~~s.e &&& s.g)
  let majority := (s.a &&& s.b) ^^^ (s.a &&& s.c) ^^^ (s.b &&& s.c)
  let t := s.h + (rotate s.e 6 ^^^ rotate s.e 11 ^^^ rotate s.e 25) + choice + k + w
  let u := (rotate s.a 2 ^^^ rotate s.a 13 ^^^ rotate s.a 22) + majority
  ⟨t + u, s.a, s.b, s.c, s.d + t, s.e, s.f, s.g⟩

/-- the rounds of the given constants, on a window of the schedule -/
def rounds : List UInt32 → Chain → List UInt32 → Chain
  | [], s, _ => s
  | k :: ks, s, window =>
    rounds ks (round s (window.headD 0) k) (window.drop 1 ++ [nextWord window])

/-- the chaining value after one more block of sixteen words -/
def compress (s : Chain) (block : List UInt32) : Chain :=
  let t := rounds roundConstants s block
  ⟨s.a + t.a, s.b + t.b, s.c + t.c, s.d + t.d, s.e + t.e, s.f + t.f, s.g + t.g, s.h + t.h⟩

/-- the message, one bit, zeros, and the length in bits, in whole blocks -/
def pad (message : Bytes) : Bytes :=
  let zeros := (119 - message.length % 64) % 64
  message ++ 0x80 :: (List.replicate zeros 0
    ++ (Bytes.ofNat 8 (8 * message.length)).reverse)

def words : (n : Nat) → Bytes → List UInt32
  | 0, _ => []
  | n + 1, bs => word (bs.take 4) :: words n (bs.drop 4)

/-- the chaining value after the next `n` blocks -/
def chain : (n : Nat) → Chain → Bytes → Chain
  | 0, s, _ => s
  | n + 1, s, bs => chain n (compress s (words 16 bs)) (bs.drop 64)

def digest (message : Bytes) : Bytes :=
  let padded := pad message
  let s := chain (padded.length / 64) start padded
  [s.a, s.b, s.c, s.d, s.e, s.f, s.g, s.h].flatMap wordBytes

@[simp] theorem length_wordBytes (n : UInt32) : (wordBytes n).length = 4 := by simp [wordBytes]

@[simp] theorem length_digest (message : Bytes) : (digest message).length = 32 := by
  simp [digest]

example : (digest (utf8 "abc")).take 4 = [0xba, 0x78, 0x16, 0xbf] := by decide +kernel

end Bson.Sha256
