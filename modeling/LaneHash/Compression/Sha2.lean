import LaneHash.Compression.Schedule

/-!
# The SHA-2 compression functions

SHA-256 and SHA-512 are one construction on words of 32 and 64 bits.  They
differ in the rotation amounts of four functions and in their tables of
constants, which make up a `Variant`; the number of rounds is the length of
the table.
-/

namespace LaneHash.Sha2

open Word

/-- What sets one member of the family apart from another.  The big functions are applied
to the first and the fifth word in a round, the small ones to the words fifteen and two
places back in the schedule. -/
structure Variant (α : Type) where
  bigSigma0 : α → α
  bigSigma1 : α → α
  smallSigma0 : α → α
  smallSigma1 : α → α
  roundConstants : List α

variable {α : Type} [Word α]

def rotationSum (first second third : Nat) (word : α) : α :=
  rotateRight word first ^^^ rotateRight word second ^^^ rotateRight word third

def shiftSum (first second shift : Nat) (word : α) : α :=
  rotateRight word first ^^^ rotateRight word second ^^^ shiftRight word shift

def choose (x y z : α) : α :=
  (x &&& y) ^^^ (~~~x &&& z)

def majority (x y z : α) : α :=
  (x &&& y) ^^^ (x &&& z) ^^^ (y &&& z)

def nextWord (variant : Variant α) (window : Vector α 16) : α :=
  variant.smallSigma1 (nth window 14) + nth window 9 + variant.smallSigma0 (nth window 1) +
    nth window 0

def step (variant : Variant α) (words : Vector α 8) (scheduled : α × α) : Vector α 8 :=
  let (constant, word) := scheduled
  let a := nth words 0
  let b := nth words 1
  let c := nth words 2
  let d := nth words 3
  let e := nth words 4
  let f := nth words 5
  let g := nth words 6
  let h := nth words 7
  let first := h + variant.bigSigma1 e + choose e f g + constant + word
  let second := variant.bigSigma0 a + majority a b c
  #v[first + second, a, b, c, d + first, e, f, g]

def compress (variant : Variant α) (state : Vector α 8) (block : List UInt8) : Vector α 8 :=
  let rounds := variant.roundConstants
  let schedule := Schedule.words (nextWord variant) rounds.length (loadSixteen .big block)
  state.zipWith (· + ·) ((rounds.zip schedule).foldl (step variant) state)

end LaneHash.Sha2

namespace LaneHash.Sha256

def initialState : Vector UInt32 8 :=
  #v[0x6a09e667, 0xbb67ae85, 0x3c6ef372, 0xa54ff53a,
    0x510e527f, 0x9b05688c, 0x1f83d9ab, 0x5be0cd19]

/-- The 32-bit member of the family, with 64 rounds. -/
def variant : Sha2.Variant UInt32 where
  bigSigma0 := Sha2.rotationSum 2 13 22
  bigSigma1 := Sha2.rotationSum 6 11 25
  smallSigma0 := Sha2.shiftSum 7 18 3
  smallSigma1 := Sha2.shiftSum 17 19 10
  roundConstants := [
    0x428a2f98, 0x71374491, 0xb5c0fbcf, 0xe9b5dba5, 0x3956c25b, 0x59f111f1,
    0x923f82a4, 0xab1c5ed5, 0xd807aa98, 0x12835b01, 0x243185be, 0x550c7dc3,
    0x72be5d74, 0x80deb1fe, 0x9bdc06a7, 0xc19bf174, 0xe49b69c1, 0xefbe4786,
    0x0fc19dc6, 0x240ca1cc, 0x2de92c6f, 0x4a7484aa, 0x5cb0a9dc, 0x76f988da,
    0x983e5152, 0xa831c66d, 0xb00327c8, 0xbf597fc7, 0xc6e00bf3, 0xd5a79147,
    0x06ca6351, 0x14292967, 0x27b70a85, 0x2e1b2138, 0x4d2c6dfc, 0x53380d13,
    0x650a7354, 0x766a0abb, 0x81c2c92e, 0x92722c85, 0xa2bfe8a1, 0xa81a664b,
    0xc24b8b70, 0xc76c51a3, 0xd192e819, 0xd6990624, 0xf40e3585, 0x106aa070,
    0x19a4c116, 0x1e376c08, 0x2748774c, 0x34b0bcb5, 0x391c0cb3, 0x4ed8aa4a,
    0x5b9cca4f, 0x682e6ff3, 0x748f82ee, 0x78a5636f, 0x84c87814, 0x8cc70208,
    0x90befffa, 0xa4506ceb, 0xbef9a3f7, 0xc67178f2]

def compress : Vector UInt32 8 → List UInt8 → Vector UInt32 8 :=
  Sha2.compress variant

end LaneHash.Sha256

namespace LaneHash.Sha512

def initialState : Vector UInt64 8 :=
  #v[0x6a09e667f3bcc908, 0xbb67ae8584caa73b,
    0x3c6ef372fe94f82b, 0xa54ff53a5f1d36f1,
    0x510e527fade682d1, 0x9b05688c2b3e6c1f,
    0x1f83d9abfb41bd6b, 0x5be0cd19137e2179]

/-- The 64-bit member of the family, with 80 rounds. -/
def variant : Sha2.Variant UInt64 where
  bigSigma0 := Sha2.rotationSum 28 34 39
  bigSigma1 := Sha2.rotationSum 14 18 41
  smallSigma0 := Sha2.shiftSum 1 8 7
  smallSigma1 := Sha2.shiftSum 19 61 6
  roundConstants := [
    0x428a2f98d728ae22, 0x7137449123ef65cd, 0xb5c0fbcfec4d3b2f, 0xe9b5dba58189dbbc,
    0x3956c25bf348b538, 0x59f111f1b605d019, 0x923f82a4af194f9b, 0xab1c5ed5da6d8118,
    0xd807aa98a3030242, 0x12835b0145706fbe, 0x243185be4ee4b28c, 0x550c7dc3d5ffb4e2,
    0x72be5d74f27b896f, 0x80deb1fe3b1696b1, 0x9bdc06a725c71235, 0xc19bf174cf692694,
    0xe49b69c19ef14ad2, 0xefbe4786384f25e3, 0x0fc19dc68b8cd5b5, 0x240ca1cc77ac9c65,
    0x2de92c6f592b0275, 0x4a7484aa6ea6e483, 0x5cb0a9dcbd41fbd4, 0x76f988da831153b5,
    0x983e5152ee66dfab, 0xa831c66d2db43210, 0xb00327c898fb213f, 0xbf597fc7beef0ee4,
    0xc6e00bf33da88fc2, 0xd5a79147930aa725, 0x06ca6351e003826f, 0x142929670a0e6e70,
    0x27b70a8546d22ffc, 0x2e1b21385c26c926, 0x4d2c6dfc5ac42aed, 0x53380d139d95b3df,
    0x650a73548baf63de, 0x766a0abb3c77b2a8, 0x81c2c92e47edaee6, 0x92722c851482353b,
    0xa2bfe8a14cf10364, 0xa81a664bbc423001, 0xc24b8b70d0f89791, 0xc76c51a30654be30,
    0xd192e819d6ef5218, 0xd69906245565a910, 0xf40e35855771202a, 0x106aa07032bbd1b8,
    0x19a4c116b8d2d0c8, 0x1e376c085141ab53, 0x2748774cdf8eeb99, 0x34b0bcb5e19b48a8,
    0x391c0cb3c5c95a63, 0x4ed8aa4ae3418acb, 0x5b9cca4f7763e373, 0x682e6ff3d6b2b8a3,
    0x748f82ee5defb2fc, 0x78a5636f43172f60, 0x84c87814a1f0ab72, 0x8cc702081a6439ec,
    0x90befffa23631e28, 0xa4506cebde82bde9, 0xbef9a3f7b2c67915, 0xc67178f2e372532b,
    0xca273eceea26619c, 0xd186b8c721c0c207, 0xeada7dd6cde0eb1e, 0xf57d4f7fee6ed178,
    0x06f067aa72176fba, 0x0a637dc5a2c898a6, 0x113f9804bef90dae, 0x1b710b35131c471b,
    0x28db77f523047d84, 0x32caab7b40c72493, 0x3c9ebe0a15c9bebc, 0x431d67c49c100d4c,
    0x4cc5d4becb3e42b6, 0x597f299cfc657e2a, 0x5fcb6fab3ad6faec, 0x6c44198c4a475817]

def compress : Vector UInt64 8 → List UInt8 → Vector UInt64 8 :=
  Sha2.compress variant

end LaneHash.Sha512
