/-!
SHA-256 digests. A message is padded to whole blocks of sixteen words, every block is expanded to
one word per round, and the rounds stir it into eight registers.
-/

set_option autoImplicit false
set_option relaxedAutoImplicit false

namespace Lockstep

namespace Sha256

structure Registers where
  a : UInt32
  b : UInt32
  c : UInt32
  d : UInt32
  e : UInt32
  f : UInt32
  g : UInt32
  h : UInt32
deriving DecidableEq, Repr

/-- The first 32 bits of the fractions of the square roots of the first eight primes. -/
def initial : Registers where
  a := 0x6a09e667
  b := 0xbb67ae85
  c := 0x3c6ef372
  d := 0xa54ff53a
  e := 0x510e527f
  f := 0x9b05688c
  g := 0x1f83d9ab
  h := 0x5be0cd19

/-- One constant per round: the first 32 bits of the fractions of the cube roots of the first
sixty-four primes. -/
def roundConstants : List UInt32 := [
  0x428a2f98, 0x71374491, 0xb5c0fbcf, 0xe9b5dba5, 0x3956c25b, 0x59f111f1, 0x923f82a4, 0xab1c5ed5,
  0xd807aa98, 0x12835b01, 0x243185be, 0x550c7dc3, 0x72be5d74, 0x80deb1fe, 0x9bdc06a7, 0xc19bf174,
  0xe49b69c1, 0xefbe4786, 0x0fc19dc6, 0x240ca1cc, 0x2de92c6f, 0x4a7484aa, 0x5cb0a9dc, 0x76f988da,
  0x983e5152, 0xa831c66d, 0xb00327c8, 0xbf597fc7, 0xc6e00bf3, 0xd5a79147, 0x06ca6351, 0x14292967,
  0x27b70a85, 0x2e1b2138, 0x4d2c6dfc, 0x53380d13, 0x650a7354, 0x766a0abb, 0x81c2c92e, 0x92722c85,
  0xa2bfe8a1, 0xa81a664b, 0xc24b8b70, 0xc76c51a3, 0xd192e819, 0xd6990624, 0xf40e3585, 0x106aa070,
  0x19a4c116, 0x1e376c08, 0x2748774c, 0x34b0bcb5, 0x391c0cb3, 0x4ed8aa4a, 0x5b9cca4f, 0x682e6ff3,
  0x748f82ee, 0x78a5636f, 0x84c87814, 0x8cc70208, 0x90befffa, 0xa4506ceb, 0xbef9a3f7, 0xc67178f2]

def rotate (x : UInt32) (n : UInt32) : UInt32 := (x >>> n) ||| (x <<< (32 - n))

/-- The next word of a schedule whose words are given newest first. -/
def nextWord (recent : List UInt32) : UInt32 :=
  let near := recent.getD 1 0
  let far := recent.getD 14 0
  (rotate near 17 ^^^ rotate near 19 ^^^ (near >>> 10)) + recent.getD 6 0 +
    (rotate far 7 ^^^ rotate far 18 ^^^ (far >>> 3)) + recent.getD 15 0

/-- Put `n` further words in front of a schedule. -/
def extend : Nat → List UInt32 → List UInt32
  | 0, recent => recent
  | n + 1, recent => extend n (nextWord recent :: recent)

def schedule (block : List UInt32) : List UInt32 := (extend 48 block.reverse).reverse

def round (r : Registers) (k w : UInt32) : Registers :=
  let choice := (r.e &&& r.f) ^^^ (~~~r.e &&& r.g)
  let majority := (r.a &&& r.b) ^^^ (r.a &&& r.c) ^^^ (r.b &&& r.c)
  let t := r.h + (rotate r.e 6 ^^^ rotate r.e 11 ^^^ rotate r.e 25) + choice + k + w
  let u := (rotate r.a 2 ^^^ rotate r.a 13 ^^^ rotate r.a 22) + majority
  ⟨t + u, r.a, r.b, r.c, r.d + t, r.e, r.f, r.g⟩

def compress (r : Registers) (block : List UInt32) : Registers :=
  let s := (roundConstants.zip (schedule block)).foldl (fun s (k, w) => round s k w) r
  ⟨r.a + s.a, r.b + s.b, r.c + s.c, r.d + s.d, r.e + s.e, r.f + s.f, r.g + s.g, r.h + s.h⟩

/-- Bytes of a number, the most significant of `count` first. -/
def bigEndian (count n : Nat) : List UInt8 :=
  (List.range count).reverse.map fun i => UInt8.ofNat (n / Nat.pow 256 i)

/-- The message, a one bit, zeros, and the message's length in bits as the last eight bytes of a
block of sixty-four. -/
def padded (message : List UInt8) : List UInt8 :=
  message ++ [0x80] ++ List.replicate ((119 - message.length % 64) % 64) 0 ++
    bigEndian 8 (8 * message.length)

def words : List UInt8 → List UInt32
  | a :: b :: c :: d :: rest =>
    ((a.toUInt32 <<< 24) ||| (b.toUInt32 <<< 16) ||| (c.toUInt32 <<< 8) ||| d.toUInt32) :: words rest
  | _ => []

/-- Stir `count` blocks of sixteen words, one after the other. -/
def absorb : Nat → Registers → List UInt32 → Registers
  | 0, r, _ => r
  | count + 1, r, ws => absorb count (compress r (ws.take 16)) (ws.drop 16)

def digest (message : List UInt8) : Registers :=
  let ws := words (padded message)
  absorb (ws.length / 16) initial ws

def hexWord (w : UInt32) : String :=
  String.ofList ((List.range 8).reverse.map fun i => Nat.digitChar (w.toNat / Nat.pow 16 i % 16))

def Registers.hex (r : Registers) : String :=
  String.join ([r.a, r.b, r.c, r.d, r.e, r.f, r.g, r.h].map hexWord)

end Sha256

def sha256Hex (text : String) : String := (Sha256.digest text.toUTF8.data.toList).hex

end Lockstep
