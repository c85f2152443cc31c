import LaneHash.Compression.Schedule

/-!
# The SM3 compression function

Sixty-four rounds over eight words.  A round reads one word of the schedule and
its exclusive or with the word four places on, and the result is joined to the
chaining words by exclusive or rather than by addition.
-/

namespace LaneHash.Sm3

open Word

def initialState : Vector UInt32 8 :=
  #v[0x7380166f, 0x4914b2b9, 0x172442d7, 0xda8a0600,
    0xa96f30bc, 0x163138aa, 0xe38dee4d, 0xb0fb0e4e]

def roundPermutation (word : UInt32) : UInt32 :=
  word ^^^ rotateLeft word 9 ^^^ rotateLeft word 17

def schedulePermutation (word : UInt32) : UInt32 :=
  word ^^^ rotateLeft word 15 ^^^ rotateLeft word 23

def nextWord (window : Vector UInt32 16) : UInt32 :=
  schedulePermutation (nth window 0 ^^^ nth window 7 ^^^ rotateLeft (nth window 13) 15) ^^^
    rotateLeft (nth window 3) 7 ^^^ nth window 10

/-- The constant of a round and its two functions, applied to their words. -/
def roundFunctions (round : Nat) (a b c e f g : UInt32) : UInt32 × UInt32 × UInt32 :=
  if round < 16 then (0x79cc4519, a ^^^ b ^^^ c, e ^^^ f ^^^ g)
  else (0x7a879d8a, a &&& b ||| a &&& c ||| b &&& c, e &&& f ||| ~~~e &&& g)

def step (words : Vector UInt32 8) (scheduled : Vector UInt32 16 × Nat) : Vector UInt32 8 :=
  let (window, round) := scheduled
  let a := nth words 0
  let b := nth words 1
  let c := nth words 2
  let d := nth words 3
  let e := nth words 4
  let f := nth words 5
  let g := nth words 6
  let h := nth words 7
  let (constant, first, second) := roundFunctions round a b c e f g
  let left := rotateLeft (rotateLeft a 12 + e + rotateLeft constant round) 7
  let right := left ^^^ rotateLeft a 12
  let newA := first + d + right + (nth window 0 ^^^ nth window 4)
  let newE := roundPermutation (second + h + left + nth window 0)
  #v[newA, a, rotateLeft b 9, c, newE, e, rotateLeft f 19, g]

def compress (state : Vector UInt32 8) (block : List UInt8) : Vector UInt32 8 :=
  let schedule := Schedule.windows nextWord 64 (loadSixteen .big block)
  state.zipWith (· ^^^ ·) (schedule.zipIdx.foldl step state)

end LaneHash.Sm3
