import Mandate.Bytes

/-!
# The SHA-2 digests

Both digests run the same compression over words of different width. Their constants are the same
too: the narrow ones are the upper halves of the wide ones.
-/

namespace Mandate

/-- What distinguishes one member of the family from another: the width of its words is in the type. -/
structure Sha2 (w : Nat) where
  rounds : Nat
  /-- Rotations of the two round functions, and rotations and final shifts of the two schedule ones. -/
  large₀ : Nat × Nat × Nat
  large₁ : Nat × Nat × Nat
  small₀ : Nat × Nat × Nat
  small₁ : Nat × Nat × Nat

namespace Sha2

variable {w : Nat}

/-- The eight working words. -/
structure State (w : Nat) where
  a : BitVec w
  b : BitVec w
  c : BitVec w
  d : BitVec w
  e : BitVec w
  f : BitVec w
  g : BitVec w
  h : BitVec w

/-- The first 64 bits of the fractional parts of the cube roots of the first eighty primes. -/
def cubeRoots : List Nat := [
  0x428a2f98d728ae22, 0x7137449123ef65cd, 0xb5c0fbcfec4d3b2f, 0xe9b5dba58189dbbc,
  0x3956c25bf348b538, 0x59f111f1b605d019, 0x923f82a4af194f9b, 0xab1c5ed5da6d8118,
  0xd807aa98a3030242, 0x12835b0145706fbe, 0x243185be4ee4b28c, 0x550c7dc3d5ffb4e2,
  0x72be5d74f27b896f, 0x80deb1fe3b1696b1, 0x9bdc06a725c71235, 0xc19bf174cf692694,
  0xe49b69c19ef14ad2, 0xefbe4786384f25e3, 0x0fc19dc68b8cd5b5, 0x240ca1cc77ac9c65,
  0x2de92c6f592b0275, 0x4a7484aa6ea6e483, 0x5cb0a9dcbd41fbd4, 0x76f988da831153b5,
  0x983e5152ee66dfab, 0xa831c66d2db43210, 0xb00327c898fb213f, 0xbf597fc7beef0ee4,
  0xc6e00bf33da88fc2, 0xd5a79147930aa725, 0x06ca6351e003826f, 0x142929670a0e6e70,
  0x27b70a8546d22ffc, 0x2e1b21385c26c926, 0x4d2c6dfc5ac42aed, 0x53380d139d95b3df,
  0x650a73548baf63de, 0x766a0abb3c77b2a8, 0x81c2c92e47edaee6, 0x92722c851482353b,
  0xa2bfe8a14cf10364, 0xa81a664bbc423001, 0xc24b8b70d0f89791, 0xc76c51a30654be30,
  0xd192e819d6ef5218, 0xd69906245565a910, 0xf40e35855771202a, 0x106aa07032bbd1b8,
  0x19a4c116b8d2d0c8, 0x1e376c085141ab53, 0x2748774cdf8eeb99, 0x34b0bcb5e19b48a8,
  0x391c0cb3c5c95a63, 0x4ed8aa4ae3418acb, 0x5b9cca4f7763e373, 0x682e6ff3d6b2b8a3,
  0x748f82ee5defb2fc, 0x78a5636f43172f60, 0x84c87814a1f0ab72, 0x8cc702081a6439ec,
  0x90befffa23631e28, 0xa4506cebde82bde9, 0xbef9a3f7b2c67915, 0xc67178f2e372532b,
  0xca273eceea26619c, 0xd186b8c721c0c207, 0xeada7dd6cde0eb1e, 0xf57d4f7fee6ed178,
  0x06f067aa72176fba, 0x0a637dc5a2c898a6, 0x113f9804bef90dae, 0x1b710b35131c471b,
  0x28db77f523047d84, 0x32caab7b40c72493, 0x3c9ebe0a15c9bebc, 0x431d67c49c100d4c,
  0x4cc5d4becb3e42b6, 0x597f299cfc657e2a, 0x5fcb6fab3ad6faec, 0x6c44198c4a475817]

/-- The upper `w` bits of a 64-bit constant. -/
def constant (w k : Nat) : BitVec w := BitVec.ofNat w (k >>> (64 - w))

/-- The first bits of the fractional parts of the square roots of the first eight primes. -/
def initial (w : Nat) : State w where
  a := constant w 0x6a09e667f3bcc908
  b := constant w 0xbb67ae8584caa73b
  c := constant w 0x3c6ef372fe94f82b
  d := constant w 0xa54ff53a5f1d36f1
  e := constant w 0x510e527fade682d1
  f := constant w 0x9b05688c2b3e6c1f
  g := constant w 0x1f83d9abfb41bd6b
  h := constant w 0x5be0cd19137e2179

/-- Three rotations of a word, added without carry. -/
def rotations (r : Nat × Nat × Nat) (x : BitVec w) : BitVec w :=
  x.rotateRight r.1 ^^^ x.rotateRight r.2.1 ^^^ x.rotateRight r.2.2

/-- Two rotations and a shift of a word, added without carry. -/
def rotationsAndShift (r : Nat × Nat × Nat) (x : BitVec w) : BitVec w :=
  x.rotateRight r.1 ^^^ x.rotateRight r.2.1 ^^^ (x >>> r.2.2)

/-- The word that follows a window of sixteen in the message schedule. -/
def nextWord (v : Sha2 w) (window : List (BitVec w)) : BitVec w :=
  rotationsAndShift v.small₁ (window.getD 14 0) + window.getD 9 0 +
    rotationsAndShift v.small₀ (window.getD 1 0) + window.getD 0 0

/-- One round on the working words. -/
def round (v : Sha2 w) (s : State w) (k word : BitVec w) : State w :=
  let choice := (s.e &&& s.f) ^^^ (~~~s.e &&& s.g)
  let majority := (s.a &&& s.b) ^^^ (s.a &&& s.c) ^^^ (s.b &&& s.c)
  let t₁ := s.h + rotations v.large₁ s.e + choice + k + word
  let t₂ := rotations v.large₀ s.a + majority
  ⟨t₁ + t₂, s.a, s.b, s.c, s.d + t₁, s.e, s.f, s.g⟩

/-- Rounds with the given constants, the window holding the next sixteen words of the schedule. -/
def runRounds (v : Sha2 w) : List Nat → List (BitVec w) → State w → State w
  | [], _, s => s
  | k :: ks, window, s =>
    runRounds v ks (window.drop 1 ++ [v.nextWord window])
      (v.round s (constant w k) (window.getD 0 0))

/-- A block of sixteen words mixed into the state. -/
def compress (v : Sha2 w) (s : State w) (block : Bytes) : State w :=
  let words := (block.chunks (w / 8)).map fun b => BitVec.ofNat w b.toNat
  let t := v.runRounds (cubeRoots.take v.rounds) words s
  ⟨s.a + t.a, s.b + t.b, s.c + t.c, s.d + t.d, s.e + t.e, s.f + t.f, s.g + t.g, s.h + t.h⟩

/-- A message with a one bit, zero bits and its length in bits, up to whole blocks. -/
def pad (w : Nat) (message : Bytes) : Bytes :=
  let block := 2 * w
  let tail := w / 4
  let zeros := (2 * block - 1 - tail - message.length % block) % block
  message ++ [0x80] ++ List.replicate zeros 0 ++ Bytes.ofNat tail (message.length * 8)

def digest (v : Sha2 w) (message : Bytes) : Bytes :=
  let s := ((pad w message).chunks (2 * w)).foldl v.compress (initial w)
  [s.a, s.b, s.c, s.d, s.e, s.f, s.g, s.h].flatMap fun word => Bytes.ofNat (w / 8) word.toNat

@[simp] theorem length_digest (v : Sha2 w) (message : Bytes) :
    (v.digest message).length = 8 * (w / 8) := by
  simp [digest]
  omega

end Sha2

/-- The digest of 32 bytes. -/
def sha256 : Bytes → Bytes :=
  Sha2.digest (⟨64, (2, 13, 22), (6, 11, 25), (7, 18, 3), (17, 19, 10)⟩ : Sha2 32)

/-- The digest of 64 bytes. -/
def sha512 : Bytes → Bytes :=
  Sha2.digest (⟨80, (28, 34, 39), (14, 18, 41), (1, 8, 7), (19, 61, 6)⟩ : Sha2 64)

@[simp] theorem length_sha256 (message : Bytes) : (sha256 message).length = 32 :=
  Sha2.length_digest _ _

@[simp] theorem length_sha512 (message : Bytes) : (sha512 message).length = 64 :=
  Sha2.length_digest _ _

end Mandate
