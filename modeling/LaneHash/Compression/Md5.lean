import LaneHash.Word

/-!
# The MD5 compression function

Sixty-four steps over four words, in four rounds of sixteen.  Every round has
its own function, its own order of visiting the block's words and its own four
rotation amounts; every step has its own constant.
-/

namespace LaneHash.Md5

open Word

def initialState : Vector UInt32 4 :=
  #v[0x67452301, 0xefcdab89, 0x98badcfe, 0x10325476]

def stepConstants : List UInt32 := [
    0xd76aa478, 0xe8c7b756, 0x242070db, 0xc1bdceee, 0xf57c0faf, 0x4787c62a,
    0xa8304613, 0xfd469501, 0x698098d8, 0x8b44f7af, 0xffff5bb1, 0x895cd7be,
    0x6b901122, 0xfd987193, 0xa679438e, 0x49b40821, 0xf61e2562, 0xc040b340,
    0x265e5a51, 0xe9b6c7aa, 0xd62f105d, 0x02441453, 0xd8a1e681, 0xe7d3fbc8,
    0x21e1cde6, 0xc33707d6, 0xf4d50d87, 0x455a14ed, 0xa9e3e905, 0xfcefa3f8,
    0x676f02d9, 0x8d2a4c8a, 0xfffa3942, 0x8771f681, 0x6d9d6122, 0xfde5380c,
    0xa4beea44, 0x4bdecfa9, 0xf6bb4b60, 0xbebfbc70, 0x289b7ec6, 0xeaa127fa,
    0xd4ef3085, 0x04881d05, 0xd9d4d039, 0xe6db99e5, 0x1fa27cf8, 0xc4ac5665,
    0xf4292244, 0x432aff97, 0xab9423a7, 0xfc93a039, 0x655b59c3, 0x8f0ccc92,
    0xffeff47d, 0x85845dd1, 0x6fa87e4f, 0xfe2ce6e0, 0xa3014314, 0x4e0811a1,
    0xf7537e82, 0xbd3af235, 0x2ad7d2bb, 0xeb86d391]

/-- The rotation amounts of each round, used in turn. -/
def rotations : Vector (Vector Nat 4) 4 :=
  #v[#v[7, 12, 17, 22], #v[5, 9, 14, 20], #v[4, 11, 16, 23], #v[6, 10, 15, 21]]

/-- The function of a round, applied to three words. -/
def roundFunction (round : Fin 4) (b c d : UInt32) : UInt32 :=
  match round with
  | 0 => b &&& c ||| ~~~b &&& d
  | 1 => d &&& b ||| ~~~d &&& c
  | 2 => b ^^^ c ^^^ d
  | 3 => c ^^^ (b ||| ~~~d)

def wordIndex (round : Fin 4) (index : Nat) : Fin 16 :=
  match round with
  | 0 => Fin.ofNat 16 index
  | 1 => Fin.ofNat 16 (5 * index + 1)
  | 2 => Fin.ofNat 16 (3 * index + 5)
  | 3 => Fin.ofNat 16 (7 * index)

def step (block : Vector UInt32 16) (words : Vector UInt32 4) (numbered : UInt32 × Nat) :
    Vector UInt32 4 :=
  let (constant, index) := numbered
  let round := Fin.ofNat 4 (index / 16)
  let a := words[0]
  let b := words[1]
  let c := words[2]
  let d := words[3]
  let sum := roundFunction round b c d + a + constant + block[wordIndex round index]
  #v[d, b + rotateLeft sum rotations[round][Fin.ofNat 4 index], b, c]

def compress (state : Vector UInt32 4) (block : List UInt8) : Vector UInt32 4 :=
  let words := loadSixteen .little block
  state.zipWith (· + ·) (stepConstants.zipIdx.foldl (step words) state)

end LaneHash.Md5
