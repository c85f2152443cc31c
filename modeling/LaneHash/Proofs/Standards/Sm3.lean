import LaneHash.Proofs.Standards.Bits

/-!
# The SM3 standard

GB/T 32905 expands a message block into two sequences of words, one of which joins
words of the other that stand four places apart.  Its rounds work on eight named
registers, and what comes of them is joined to the chaining value by exclusive or.
-/

namespace LaneHash.Standards.Sm3

def p0 (x : BitVec 32) : BitVec 32 :=
  x ^^^ x.rotateLeft 9 ^^^ x.rotateLeft 17

def p1 (x : BitVec 32) : BitVec 32 :=
  x ^^^ x.rotateLeft 15 ^^^ x.rotateLeft 23

def ff (j : Nat) (x y z : BitVec 32) : BitVec 32 :=
  if j < 16 then x ^^^ y ^^^ z else (x &&& y) ||| (x &&& z) ||| (y &&& z)

def gg (j : Nat) (x y z : BitVec 32) : BitVec 32 :=
  if j < 16 then x ^^^ y ^^^ z else (x &&& y) ||| (~~~x &&& z)

/-- The constant of a round. -/
def t (j : Nat) : BitVec 32 :=
  if j < 16 then 0x79cc4519 else 0x7a879d8a

/-- The words of the first sequence. -/
def w (block : List UInt8) (j : Nat) : BitVec 32 :=
  if j < 16 then
    messageWord bigEndian 32 block j
  else
    p1 (w block (j - 16) ^^^ w block (j - 9) ^^^ (w block (j - 3)).rotateLeft 15) ^^^
      (w block (j - 13)).rotateLeft 7 ^^^ w block (j - 6)
termination_by j

/-- The words of the second sequence. -/
def w' (block : List UInt8) (j : Nat) : BitVec 32 :=
  w block j ^^^ w block (j + 4)

def round (block : List UInt8) (registers : EightWords 32) (j : Nat) : EightWords 32 :=
  let ss1 := (registers.a.rotateLeft 12 + registers.e + (t j).rotateLeft (j % 32)).rotateLeft 7
  let ss2 := ss1 ^^^ registers.a.rotateLeft 12
  let tt1 := ff j registers.a registers.b registers.c + registers.d + ss2 + w' block j
  let tt2 := gg j registers.e registers.f registers.g + registers.h + ss1 + w block j
  { d := registers.c
    c := registers.b.rotateLeft 9
    b := registers.a
    a := tt1
    h := registers.g
    g := registers.f.rotateLeft 19
    f := registers.e
    e := p0 tt2 }

def compress (value : EightWords 32) (block : List UInt8) : EightWords 32 :=
  let last := (List.range 64).foldl (round block) value
  { a := last.a ^^^ value.a
    b := last.b ^^^ value.b
    c := last.c ^^^ value.c
    d := last.d ^^^ value.d
    e := last.e ^^^ value.e
    f := last.f ^^^ value.f
    g := last.g ^^^ value.g
    h := last.h ^^^ value.h }

open BitWord Word

variable {block : List UInt8}

theorem bits_roundPermutation (word : UInt32) :
    bits (LaneHash.Sm3.roundPermutation word) = p0 (bits word) := by
  simp only [LaneHash.Sm3.roundPermutation, p0, bits_xor, bits_rotateLeft]

theorem bits_schedulePermutation (word : UInt32) :
    bits (LaneHash.Sm3.schedulePermutation word) = p1 (bits word) := by
  simp only [LaneHash.Sm3.schedulePermutation, p1, bits_xor, bits_rotateLeft]

theorem bits_nextWord (j : Nat) (window : Vector UInt32 16)
    (shown : ∀ place < 16, bits (nth window place) = w block (j + place)) :
    bits (LaneHash.Sm3.nextWord window) = w block (j + 16) := by
  rw [w, if_neg (by omega), LaneHash.Sm3.nextWord]
  simp only [bits_xor, bits_schedulePermutation, bits_rotateLeft]
  rw [shown 0 (by decide), shown 3 (by decide), shown 7 (by decide), shown 10 (by decide),
    shown 13 (by decide)]
  rfl

theorem bits_roundFunctions (j : Nat) (a b c e f g : UInt32) :
    bits (LaneHash.Sm3.roundFunctions j a b c e f g).1 = t j ∧
      bits (LaneHash.Sm3.roundFunctions j a b c e f g).2.1 = ff j (bits a) (bits b) (bits c) ∧
      bits (LaneHash.Sm3.roundFunctions j a b c e f g).2.2 = gg j (bits e) (bits f) (bits g) := by
  rw [LaneHash.Sm3.roundFunctions, t, ff, gg]
  split
  · exact ⟨rfl, by simp only [bits_xor], by simp only [bits_xor]⟩
  · exact ⟨rfl, by simp only [bits_or, bits_and], by simp only [bits_or, bits_and, bits_not]⟩

theorem ofState_step (words : Vector UInt32 8) {window : Vector UInt32 16} {j : Nat}
    (shown : ∀ place < 16, bits (nth window place) = w block (j + place)) :
    EightWords.ofState (LaneHash.Sm3.step words (window, j)) =
      round block (EightWords.ofState words) j := by
  obtain ⟨constant, first, second⟩ := bits_roundFunctions j (nth words 0) (nth words 1)
    (nth words 2) (nth words 4) (nth words 5) (nth words 6)
  let functions := LaneHash.Sm3.roundFunctions j (nth words 0) (nth words 1) (nth words 2)
    (nth words 4) (nth words 5) (nth words 6)
  -- The constant is rotated by up to 63 places, of which whole turns do not count.
  have turned : bits (rotateLeft functions.1 j) = (t j).rotateLeft (j % 32) := by
    rw [bits_rotateLeft, constant, BitVec.rotateLeft_mod_eq_rotateLeft]
  let left := rotateLeft (rotateLeft (nth words 0) 12 + nth words 4 + rotateLeft functions.1 j) 7
  have ss1 : bits left = ((bits (nth words 0)).rotateLeft 12 + bits (nth words 4) +
      (t j).rotateLeft (j % 32)).rotateLeft 7 := by
    rw [bits_rotateLeft, bits_add, bits_add, bits_rotateLeft, turned]
  have now : bits (nth window 0) = w block j := shown 0 (by decide)
  have later : bits (nth window 4) = w block (j + 4) := shown 4 (by decide)
  apply EightWords.ext
  · change bits (functions.2.1 + nth words 3 + (left ^^^ rotateLeft (nth words 0) 12) +
      (nth window 0 ^^^ nth window 4)) = _
    rw [bits_add, bits_add, bits_add, bits_xor, bits_xor, first, ss1, bits_rotateLeft, now, later]
    rfl
  · rfl
  · exact bits_rotateLeft _ _
  · rfl
  · change bits (LaneHash.Sm3.roundPermutation
      (functions.2.2 + nth words 7 + left + nth window 0)) = _
    rw [bits_roundPermutation, bits_add, bits_add, bits_add, second, ss1, now]
    rfl
  · rfl
  · exact bits_rotateLeft _ _
  · rfl

/-- SM3 compresses as the standard has it. -/
theorem ofState_compress (state : Vector UInt32 8) (block : List UInt8) :
    EightWords.ofState (LaneHash.Sm3.compress state block) =
      compress (EightWords.ofState state) block := by
  let window (j : Nat) : Vector UInt32 16 :=
    Schedule.windowAt LaneHash.Sm3.nextWord (loadSixteen .big block) j
  have shown (j : Nat) : ∀ place < 16, bits (nth (window j) place) = w block (j + place) := by
    apply Schedule.bits_nth_windowAt _ bits_nextWord
    intro place within
    rw [nth_loadSixteen _ _ within, bits_load_big, w, if_pos within]
  have last : EightWords.ofState ((List.range 64).foldl
        (fun words j => LaneHash.Sm3.step words (window j, j)) state) =
      (List.range 64).foldl (round block) (EightWords.ofState state) := by
    apply foldl_range_seen fun _ => EightWords.ofState
    intro j within words
    exact ofState_step words (shown j)
  rw [compress, ← last, LaneHash.Sm3.compress, Schedule.windows_eq, zipIdx_map_range,
    List.foldl_map]
  apply EightWords.ext <;>
    exact (congrArg bits (nth_zipWith _ _ _)).trans ((bits_xor _ _).trans (BitVec.xor_comm _ _))

end LaneHash.Standards.Sm3
