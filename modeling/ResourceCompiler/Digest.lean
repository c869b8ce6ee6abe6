/-!
# SHA-256

The digest of a sequence of bytes: the bytes are padded to whole blocks, and every block is mixed
into a state of eight words.

## Main definitions

* `padded`: the bytes with their length behind them, in whole blocks of 64.
* `schedule`: the 64 words that a block contributes.
* `Words.absorb`: a block mixed into a state.
* `sha256`: the 32 bytes of the digest.

## Main statements

* `length_padded`: padding ends on a block.
* `length_sha256`: the digest has 32 bytes.
-/

namespace ResourceCompiler.Digest

/-- The first 32 bits of the fractional parts of the cube roots of the first 64 primes. -/
def roundConstants : List UInt32 := [
    0x428a2f98, 0x71374491, 0xb5c0fbcf, 0xe9b5dba5, 0x3956c25b, 0x59f111f1, 0x923f82a4, 0xab1c5ed5,
    0xd807aa98, 0x12835b01, 0x243185be, 0x550c7dc3, 0x72be5d74, 0x80deb1fe, 0x9bdc06a7, 0xc19bf174,
    0xe49b69c1, 0xefbe4786, 0x0fc19dc6, 0x240ca1cc, 0x2de92c6f, 0x4a7484aa, 0x5cb0a9dc, 0x76f988da,
    0x983e5152, 0xa831c66d, 0xb00327c8, 0xbf597fc7, 0xc6e00bf3, 0xd5a79147, 0x06ca6351, 0x14292967,
    0x27b70a85, 0x2e1b2138, 0x4d2c6dfc, 0x53380d13, 0x650a7354, 0x766a0abb, 0x81c2c92e, 0x92722c85,
    0xa2bfe8a1, 0xa81a664b, 0xc24b8b70, 0xc76c51a3, 0xd192e819, 0xd6990624, 0xf40e3585, 0x106aa070,
    0x19a4c116, 0x1e376c08, 0x2748774c, 0x34b0bcb5, 0x391c0cb3, 0x4ed8aa4a, 0x5b9cca4f, 0x682e6ff3,
    0x748f82ee, 0x78a5636f, 0x84c87814, 0x8cc70208, 0x90befffa, 0xa4506ceb, 0xbef9a3f7, 0xc67178f2]

/-- The eight words of a state. -/
structure Words where
  a : UInt32
  b : UInt32
  c : UInt32
  d : UInt32
  e : UInt32
  f : UInt32
  g : UInt32
  h : UInt32

/-- The state before the first block: the fractional parts of the square roots of the first eight
primes. -/
def Words.initial : Words :=
  ⟨0x6a09e667, 0xbb67ae85, 0x3c6ef372, 0xa54ff53a, 0x510e527f, 0x9b05688c, 0x1f83d9ab, 0x5be0cd19⟩

/-- A word turned to the right. -/
def rotate (x n : UInt32) : UInt32 := (x >>> n) ||| (x <<< (32 - n))

/-! ### Padding -/

/-- The number of zero bytes between the end mark and the length. -/
def zerosAfter (length : Nat) : Nat := (119 - length % 64) % 64

/-- The low `n` bytes of a number, the most significant first. -/
def bigEndian : Nat → Nat → List UInt8
  | 0, _ => []
  | n + 1, x => UInt8.ofNat (x / Nat.pow 256 n) :: bigEndian n x

theorem length_bigEndian (n x : Nat) : (bigEndian n x).length = n := by
  induction n with
  | zero => rfl
  | succ n ih => simp [bigEndian, ih]

/-- The bytes, an end mark, zeros, and the number of bits in eight bytes. -/
def padded (bytes : List UInt8) : List UInt8 :=
  bytes ++ 0x80 :: List.replicate (zerosAfter bytes.length) 0 ++ bigEndian 8 (8 * bytes.length)

theorem length_padded (bytes : List UInt8) : (padded bytes).length % 64 = 0 := by
  simp only [padded, List.length_append, List.length_cons, List.length_replicate,
    length_bigEndian, zerosAfter]
  omega

/-- The blocks of 64 bytes of a sequence. -/
def blocks (bytes : List UInt8) : List (List UInt8) :=
  if _h : bytes.length < 64 then []
  else bytes.take 64 :: blocks (bytes.drop 64)
termination_by bytes.length
decreasing_by simp; omega

/-! ### Mixing -/

/-- The words of a sequence of bytes, four bytes each. -/
def wordsOf : List UInt8 → List UInt32
  | a :: b :: c :: d :: rest =>
    ((a.toUInt32 <<< 24) ||| (b.toUInt32 <<< 16) ||| (c.toUInt32 <<< 8) ||| d.toUInt32)
      :: wordsOf rest
  | _ => []

/-- The next word of a schedule whose words so far are given newest first. -/
def nextWord (ws : List UInt32) : UInt32 :=
  let w (n : Nat) : UInt32 := ws.getD n 0
  let s0 := rotate (w 14) 7 ^^^ rotate (w 14) 18 ^^^ (w 14 >>> 3)
  let s1 := rotate (w 1) 17 ^^^ rotate (w 1) 19 ^^^ (w 1 >>> 10)
  s1 + w 6 + s0 + w 15

/-- The words newest first, with `n` words more. -/
def extend : Nat → List UInt32 → List UInt32
  | 0, ws => ws
  | n + 1, ws => extend n (nextWord ws :: ws)

theorem length_extend (n : Nat) (ws : List UInt32) : (extend n ws).length = ws.length + n := by
  induction n generalizing ws with
  | zero => rfl
  | succ n ih => rw [extend, ih, List.length_cons]; omega

/-- The 64 words that a block contributes. -/
def schedule (block : List UInt8) : List UInt32 := (extend 48 (wordsOf block).reverse).reverse

/-- One round, with the sum of its constant and its word of the schedule. -/
def Words.round (s : Words) (k : UInt32) : Words :=
  let s1 := rotate s.e 6 ^^^ rotate s.e 11 ^^^ rotate s.e 25
  let choice := (s.e &&& s.f) ^^^ ((~~~ s.e) &&& s.g)
  let t1 := s.h + s1 + choice + k
  let s0 := rotate s.a 2 ^^^ rotate s.a 13 ^^^ rotate s.a 22
  let majority := (s.a &&& s.b) ^^^ (s.a &&& s.c) ^^^ (s.b &&& s.c)
  ⟨t1 + s0 + majority, s.a, s.b, s.c, s.d + t1, s.e, s.f, s.g⟩

/-- The words of two states added one by one. -/
def Words.add (s t : Words) : Words :=
  ⟨s.a + t.a, s.b + t.b, s.c + t.c, s.d + t.d, s.e + t.e, s.f + t.f, s.g + t.g, s.h + t.h⟩

/-- A block mixed into a state. -/
def Words.absorb (s : Words) (block : List UInt8) : Words :=
  s.add ((List.zipWith (· + ·) roundConstants (schedule block)).foldl Words.round s)

/-- The bytes of a state. -/
def Words.bytes (s : Words) : List UInt8 :=
  [s.a, s.b, s.c, s.d, s.e, s.f, s.g, s.h].flatMap fun w => bigEndian 4 w.toNat

theorem Words.length_bytes (s : Words) : s.bytes.length = 32 := by
  simp [Words.bytes, length_bigEndian]

/-- The SHA-256 digest of a sequence of bytes. -/
def sha256 (bytes : List UInt8) : List UInt8 :=
  ((blocks (padded bytes)).foldl Words.absorb Words.initial).bytes

theorem length_sha256 (bytes : List UInt8) : (sha256 bytes).length = 32 :=
  Words.length_bytes _

end ResourceCompiler.Digest
