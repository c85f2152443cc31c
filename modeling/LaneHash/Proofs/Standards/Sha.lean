import LaneHash.Proofs.Standards.Bits

/-!
# The secure hash standard

FIPS 180-4 describes the compression functions of SHA-1 and of the SHA-2 family by
message schedules that refer to earlier words by their numbers, and by rounds that
move words between named registers.
-/

namespace LaneHash.Standards

section Functions

variable {width : Nat}

def ch (x y z : BitVec width) : BitVec width :=
  (x &&& y) ^^^ (~~~x &&& z)

def parity (x y z : BitVec width) : BitVec width :=
  x ^^^ y ^^^ z

def maj (x y z : BitVec width) : BitVec width :=
  (x &&& y) ^^^ (x &&& z) ^^^ (y &&& z)

/-- No bit is chosen from both words. -/
theorem or_eq_ch (x y z : BitVec width) : (x &&& y) ||| (~~~x &&& z) = ch x y z := by
  ext place within
  simp only [ch, BitVec.getElem_or, BitVec.getElem_and, BitVec.getElem_not, BitVec.getElem_xor]
  cases x[place] <;> simp

/-- An odd number of the three pairs is set if any is. -/
theorem or_eq_maj (x y z : BitVec width) :
    (x &&& y) ||| (x &&& z) ||| (y &&& z) = maj x y z := by
  ext place within
  simp only [maj, BitVec.getElem_or, BitVec.getElem_and, BitVec.getElem_xor]
  cases x[place] <;> cases y[place] <;> simp

end Functions

namespace Sha1

@[ext]
structure Registers where
  a : BitVec 32
  b : BitVec 32
  c : BitVec 32
  d : BitVec 32
  e : BitVec 32

/-- The words of the message schedule. -/
def schedule (block : List UInt8) (t : Nat) : BitVec 32 :=
  if t < 16 then
    messageWord bigEndian 32 block t
  else
    (schedule block (t - 3) ^^^ schedule block (t - 8) ^^^ schedule block (t - 14) ^^^
      schedule block (t - 16)).rotateLeft 1
termination_by t

def f (t : Nat) (x y z : BitVec 32) : BitVec 32 :=
  if t < 20 then ch x y z
  else if t < 40 then parity x y z
  else if t < 60 then maj x y z
  else parity x y z

def k (t : Nat) : BitVec 32 :=
  if t < 20 then 0x5a827999
  else if t < 40 then 0x6ed9eba1
  else if t < 60 then 0x8f1bbcdc
  else 0xca62c1d6

def round (block : List UInt8) (registers : Registers) (t : Nat) : Registers :=
  let temporary := registers.a.rotateLeft 5 + f t registers.b registers.c registers.d +
    registers.e + k t + schedule block t
  { e := registers.d
    d := registers.c
    c := registers.b.rotateLeft 30
    b := registers.a
    a := temporary }

def compress (hash : Registers) (block : List UInt8) : Registers :=
  let last := (List.range 80).foldl (round block) hash
  { a := last.a + hash.a
    b := last.b + hash.b
    c := last.c + hash.c
    d := last.d + hash.d
    e := last.e + hash.e }

open BitWord Word

def ofState (words : Vector UInt32 5) : Registers :=
  ⟨bits (nth words 0), bits (nth words 1), bits (nth words 2), bits (nth words 3),
    bits (nth words 4)⟩

variable {block : List UInt8}

theorem bits_nextWord (t : Nat) (window : Vector UInt32 16)
    (shown : ∀ place < 16, bits (nth window place) = schedule block (t + place)) :
    bits (LaneHash.Sha1.nextWord window) = schedule block (t + 16) := by
  rw [schedule, if_neg (by omega), LaneHash.Sha1.nextWord, bits_rotateLeft]
  simp only [bits_xor]
  rw [shown 13 (by decide), shown 8 (by decide), shown 2 (by decide), shown 0 (by decide)]
  rfl

theorem bits_roundFunction (t : Nat) (b c d : UInt32) :
    bits (LaneHash.Sha1.roundFunction t b c d).1 = f t (bits b) (bits c) (bits d) ∧
      bits (LaneHash.Sha1.roundFunction t b c d).2 = k t := by
  rw [LaneHash.Sha1.roundFunction, f, k]
  split
  · exact ⟨by simp only [bits_or, bits_and, bits_not, or_eq_ch], rfl⟩
  · split
    · exact ⟨by simp only [bits_xor, parity], rfl⟩
    · split
      · exact ⟨by simp only [bits_or, bits_and, or_eq_maj], rfl⟩
      · exact ⟨by simp only [bits_xor, parity], rfl⟩

theorem ofState_step (words : Vector UInt32 5) {word : UInt32} {t : Nat}
    (scheduled : bits word = schedule block t) :
    ofState (LaneHash.Sha1.step words (word, t)) = round block (ofState words) t := by
  obtain ⟨mixed, constant⟩ := bits_roundFunction t (nth words 1) (nth words 2) (nth words 3)
  apply Registers.ext
  · change bits (rotateLeft (nth words 0) 5 +
      (LaneHash.Sha1.roundFunction t (nth words 1) (nth words 2) (nth words 3)).1 + nth words 4 +
      (LaneHash.Sha1.roundFunction t (nth words 1) (nth words 2) (nth words 3)).2 + word) = _
    rw [bits_add, bits_add, bits_add, bits_add, bits_rotateLeft, mixed, constant, scheduled]
    rfl
  · rfl
  · exact bits_rotateLeft _ _
  · rfl
  · rfl

/-- SHA-1 compresses as the standard has it. -/
theorem ofState_compress (state : Vector UInt32 5) (block : List UInt8) :
    ofState (LaneHash.Sha1.compress state block) = compress (ofState state) block := by
  let window (t : Nat) : Vector UInt32 16 :=
    Schedule.windowAt LaneHash.Sha1.nextWord (loadSixteen .big block) t
  have shown (t : Nat) : ∀ place < 16, bits (nth (window t) place) = schedule block (t + place) := by
    apply Schedule.bits_nth_windowAt _ bits_nextWord
    intro place within
    rw [nth_loadSixteen _ _ within, bits_load_big, schedule, if_pos within]
  have last : ofState ((List.range 80).foldl
        (fun words t => LaneHash.Sha1.step words (nth (window t) 0, t)) state) =
      (List.range 80).foldl (round block) (ofState state) := by
    apply foldl_range_seen fun _ => ofState
    intro t within words
    exact ofState_step words (shown t 0 (by decide))
  rw [compress, ← last, LaneHash.Sha1.compress, Schedule.words_eq, zipIdx_map_range, List.foldl_map]
  apply Registers.ext <;> exact bits_nth_zipWith_add _ _

end Sha1

namespace Sha2

/-- What the members of the family differ in. -/
structure Member (width : Nat) where
  bigSigma0 : BitVec width → BitVec width
  bigSigma1 : BitVec width → BitVec width
  smallSigma0 : BitVec width → BitVec width
  smallSigma1 : BitVec width → BitVec width
  rounds : Nat
  k : Nat → BitVec width

def sha256 (table : List (BitVec 32)) : Member 32 where
  bigSigma0 x := x.rotateRight 2 ^^^ x.rotateRight 13 ^^^ x.rotateRight 22
  bigSigma1 x := x.rotateRight 6 ^^^ x.rotateRight 11 ^^^ x.rotateRight 25
  smallSigma0 x := x.rotateRight 7 ^^^ x.rotateRight 18 ^^^ x >>> 3
  smallSigma1 x := x.rotateRight 17 ^^^ x.rotateRight 19 ^^^ x >>> 10
  rounds := 64
  k t := table.getD t 0

def sha512 (table : List (BitVec 64)) : Member 64 where
  bigSigma0 x := x.rotateRight 28 ^^^ x.rotateRight 34 ^^^ x.rotateRight 39
  bigSigma1 x := x.rotateRight 14 ^^^ x.rotateRight 18 ^^^ x.rotateRight 41
  smallSigma0 x := x.rotateRight 1 ^^^ x.rotateRight 8 ^^^ x >>> 7
  smallSigma1 x := x.rotateRight 19 ^^^ x.rotateRight 61 ^^^ x >>> 6
  rounds := 80
  k t := table.getD t 0

variable {width : Nat}

/-- The words of the message schedule. -/
def schedule (member : Member width) (block : List UInt8) (t : Nat) : BitVec width :=
  if t < 16 then
    messageWord bigEndian width block t
  else
    member.smallSigma1 (schedule member block (t - 2)) + schedule member block (t - 7) +
      member.smallSigma0 (schedule member block (t - 15)) + schedule member block (t - 16)
termination_by t

def round (member : Member width) (block : List UInt8) (registers : EightWords width) (t : Nat) :
    EightWords width :=
  let temporary1 := registers.h + member.bigSigma1 registers.e +
    ch registers.e registers.f registers.g + member.k t + schedule member block t
  let temporary2 := member.bigSigma0 registers.a + maj registers.a registers.b registers.c
  { h := registers.g
    g := registers.f
    f := registers.e
    e := registers.d + temporary1
    d := registers.c
    c := registers.b
    b := registers.a
    a := temporary1 + temporary2 }

def compress (member : Member width) (hash : EightWords width) (block : List UInt8) :
    EightWords width :=
  let last := (List.range member.rounds).foldl (round member block) hash
  { a := last.a + hash.a
    b := last.b + hash.b
    c := last.c + hash.c
    d := last.d + hash.d
    e := last.e + hash.e
    f := last.f + hash.f
    g := last.g + hash.g
    h := last.h + hash.h }

open BitWord Word

variable {α : Type} [Word α] [BitWord α width]

/-- A member of the family computes with words what the standard has for it. -/
structure Describes (member : Member width) (variant : LaneHash.Sha2.Variant α) : Prop where
  bigSigma0 : ∀ word, bits (variant.bigSigma0 word) = member.bigSigma0 (bits word)
  bigSigma1 : ∀ word, bits (variant.bigSigma1 word) = member.bigSigma1 (bits word)
  smallSigma0 : ∀ word, bits (variant.smallSigma0 word) = member.smallSigma0 (bits word)
  smallSigma1 : ∀ word, bits (variant.smallSigma1 word) = member.smallSigma1 (bits word)
  rounds : variant.roundConstants.length = member.rounds
  k : ∀ t, bits (variant.roundConstants.getD t (ofNat 0)) = member.k t

variable {member : Member width} {variant : LaneHash.Sha2.Variant α} {block : List UInt8}

theorem bits_nextWord (describes : Describes member variant) (t : Nat) (window : Vector α 16)
    (shown : ∀ place < 16, bits (nth window place) = schedule member block (t + place)) :
    bits (LaneHash.Sha2.nextWord variant window) = schedule member block (t + 16) := by
  rw [schedule, if_neg (by omega), LaneHash.Sha2.nextWord]
  simp only [bits_add, describes.smallSigma0, describes.smallSigma1]
  rw [shown 14 (by decide), shown 9 (by decide), shown 1 (by decide), shown 0 (by decide)]
  rfl

theorem bits_choose (x y z : α) :
    bits (LaneHash.Sha2.choose x y z) = ch (bits x) (bits y) (bits z) := by
  simp only [LaneHash.Sha2.choose, ch, bits_xor, bits_and, bits_not]

theorem bits_majority (x y z : α) :
    bits (LaneHash.Sha2.majority x y z) = maj (bits x) (bits y) (bits z) := by
  simp only [LaneHash.Sha2.majority, maj, bits_xor, bits_and]

theorem ofState_step (describes : Describes member variant) (words : Vector α 8)
    {constant word : α} {t : Nat} (given : bits constant = member.k t)
    (scheduled : bits word = schedule member block t) :
    EightWords.ofState (LaneHash.Sha2.step variant words (constant, word)) =
      round member block (EightWords.ofState words) t := by
  have first : bits (nth words 7 + variant.bigSigma1 (nth words 4) +
        LaneHash.Sha2.choose (nth words 4) (nth words 5) (nth words 6) + constant + word) =
      bits (nth words 7) + member.bigSigma1 (bits (nth words 4)) +
        ch (bits (nth words 4)) (bits (nth words 5)) (bits (nth words 6)) + member.k t +
        schedule member block t := by
    rw [bits_add, bits_add, bits_add, bits_add, describes.bigSigma1, bits_choose, given, scheduled]
  have second : bits (variant.bigSigma0 (nth words 0) +
        LaneHash.Sha2.majority (nth words 0) (nth words 1) (nth words 2)) =
      member.bigSigma0 (bits (nth words 0)) +
        maj (bits (nth words 0)) (bits (nth words 1)) (bits (nth words 2)) := by
    rw [bits_add, describes.bigSigma0, bits_majority]
  apply EightWords.ext
  · exact (bits_add _ _).trans (congr (congrArg _ first) second)
  · rfl
  · rfl
  · rfl
  · exact (bits_add _ _).trans (congrArg _ first)
  · rfl
  · rfl
  · rfl

/-- A member of the family compresses as the standard has it. -/
theorem ofState_compress (describes : Describes member variant) (state : Vector α 8)
    (block : List UInt8) :
    EightWords.ofState (LaneHash.Sha2.compress variant state block) =
      compress member (EightWords.ofState state) block := by
  let window (t : Nat) : Vector α 16 :=
    Schedule.windowAt (LaneHash.Sha2.nextWord variant) (loadSixteen .big block) t
  have shown (t : Nat) :
      ∀ place < 16, bits (nth (window t) place) = schedule member block (t + place) := by
    apply Schedule.bits_nth_windowAt _ (bits_nextWord describes)
    intro place within
    rw [nth_loadSixteen _ _ within, bits_load_big, schedule, if_pos within]
  have last : EightWords.ofState ((List.range member.rounds).foldl
        (fun words t => LaneHash.Sha2.step variant words
          (variant.roundConstants.getD t (ofNat 0), nth (window t) 0)) state) =
      (List.range member.rounds).foldl (round member block) (EightWords.ofState state) := by
    apply foldl_range_seen fun _ => EightWords.ofState
    intro t within words
    exact ofState_step describes words (describes.k t) (shown t 0 (by decide))
  rw [compress, ← last, LaneHash.Sha2.compress, Schedule.words_eq, zip_map_range _ (ofNat 0),
    List.foldl_map, describes.rounds]
  apply EightWords.ext <;> exact bits_nth_zipWith_add _ _

theorem bits_rotationSum (first second third : Nat) (word : α) :
    bits (LaneHash.Sha2.rotationSum first second third word) =
      (bits word).rotateRight first ^^^ (bits word).rotateRight second ^^^
        (bits word).rotateRight third := by
  simp only [LaneHash.Sha2.rotationSum, bits_xor, bits_rotateRight]

theorem bits_shiftSum (first second : Nat) {shift : Nat} (within : shift < width) (word : α) :
    bits (LaneHash.Sha2.shiftSum first second shift word) =
      (bits word).rotateRight first ^^^ (bits word).rotateRight second ^^^
        bits word >>> shift := by
  simp only [LaneHash.Sha2.shiftSum, bits_xor, bits_rotateRight, bits_shiftRight word shift within]

theorem describes_sha256 :
    Describes (sha256 (LaneHash.Sha256.variant.roundConstants.map bits))
      LaneHash.Sha256.variant where
  bigSigma0 := bits_rotationSum 2 13 22
  bigSigma1 := bits_rotationSum 6 11 25
  smallSigma0 := bits_shiftSum 7 18 (by decide)
  smallSigma1 := bits_shiftSum 17 19 (by decide)
  rounds := rfl
  k := bits_getD _

theorem describes_sha512 :
    Describes (sha512 (LaneHash.Sha512.variant.roundConstants.map bits))
      LaneHash.Sha512.variant where
  bigSigma0 := bits_rotationSum 28 34 39
  bigSigma1 := bits_rotationSum 14 18 41
  smallSigma0 := bits_shiftSum 1 8 (by decide)
  smallSigma1 := bits_shiftSum 19 61 (by decide)
  rounds := rfl
  k := bits_getD _

end Sha2

end LaneHash.Standards
