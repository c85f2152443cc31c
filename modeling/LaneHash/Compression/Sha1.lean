import LaneHash.Compression.Schedule

/-!
# The SHA-1 compression function

Eighty rounds over five words.  Four functions and four constants serve twenty
rounds each; the block's sixteen words are stretched to eighty by a rotated
exclusive or.
-/

namespace LaneHash.Sha1

open Word

def initialState : Vector UInt32 5 :=
  #v[0x67452301, 0xefcdab89, 0x98badcfe,
    0x10325476, 0xc3d2e1f0]

/-- The schedule word after a window: four earlier words joined and rotated. -/
def nextWord (window : Vector UInt32 16) : UInt32 :=
  rotateLeft (nth window 13 ^^^ nth window 8 ^^^ nth window 2 ^^^ nth window 0) 1

def roundFunction (round : Nat) (b c d : UInt32) : UInt32 × UInt32 :=
  if round < 20 then (b &&& c ||| ~~~b &&& d, 0x5a827999)
  else if round < 40 then (b ^^^ c ^^^ d, 0x6ed9eba1)
  else if round < 60 then (b &&& c ||| b &&& d ||| c &&& d, 0x8f1bbcdc)
  else (b ^^^ c ^^^ d, 0xca62c1d6)

def step (words : Vector UInt32 5) (scheduled : UInt32 × Nat) : Vector UInt32 5 :=
  let (word, round) := scheduled
  let a := nth words 0
  let b := nth words 1
  let c := nth words 2
  let d := nth words 3
  let e := nth words 4
  let (mixed, constant) := roundFunction round b c d
  #v[rotateLeft a 5 + mixed + e + constant + word, a, rotateLeft b 30, c, d]

def compress (state : Vector UInt32 5) (block : List UInt8) : Vector UInt32 5 :=
  let schedule := Schedule.words nextWord 80 (loadSixteen .big block)
  state.zipWith (· + ·) (schedule.zipIdx.foldl step state)

end LaneHash.Sha1
