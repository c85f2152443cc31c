import LaneHash.Proofs.Standards.Md5
import LaneHash.Proofs.Standards.Sha
import LaneHash.Proofs.Standards.Sm3

/-!
# Compression by the standards

Each algorithm has a standard that describes its compression function with named
registers and numbered words.  Carried over to the words of a state, that is the
function with which the algorithm absorbs a block.
-/

namespace LaneHash

namespace Standards

open BitWord

namespace EightWords

variable {α : Type} [Word α] {width : Nat} [BitWord α width]

/-- The words that registers hold, as a state. -/
def toState (registers : EightWords width) : Vector α 8 :=
  #v[ofBits registers.a, ofBits registers.b, ofBits registers.c, ofBits registers.d,
    ofBits registers.e, ofBits registers.f, ofBits registers.g, ofBits registers.h]

theorem toState_ofState (state : Vector α 8) : toState (ofState state) = state := by
  apply Vector.ext
  intro place within
  have places : place = 0 ∨ place = 1 ∨ place = 2 ∨ place = 3 ∨ place = 4 ∨ place = 5 ∨
      place = 6 ∨ place = 7 := by omega
  rcases places with rfl | rfl | rfl | rfl | rfl | rfl | rfl | rfl <;> exact ofBits_bits _

end EightWords

namespace Sha1

@[inherit_doc EightWords.toState]
def toState (registers : Registers) : Vector UInt32 5 :=
  #v[ofBits registers.a, ofBits registers.b, ofBits registers.c, ofBits registers.d,
    ofBits registers.e]

theorem toState_ofState (state : Vector UInt32 5) : toState (ofState state) = state := by
  apply Vector.ext
  intro place within
  have places : place = 0 ∨ place = 1 ∨ place = 2 ∨ place = 3 ∨ place = 4 := by omega
  rcases places with rfl | rfl | rfl | rfl | rfl <;> exact ofBits_bits _

/-- The function that the standard describes, on the words of a state. -/
def onState (state : Vector UInt32 5) (block : List UInt8) : Vector UInt32 5 :=
  toState (compress (ofState state) block)

theorem compress_eq_onState (state : Vector UInt32 5) (block : List UInt8) :
    LaneHash.Sha1.compress state block = onState state block := by
  rw [onState, ← ofState_compress, toState_ofState]

end Sha1

namespace Md5

@[inherit_doc EightWords.toState]
def toState (registers : Registers) : Vector UInt32 4 :=
  #v[ofBits registers.a, ofBits registers.b, ofBits registers.c, ofBits registers.d]

theorem toState_ofState (state : Vector UInt32 4) : toState (ofState 0 state) = state := by
  apply Vector.ext
  intro place within
  have places : place = 0 ∨ place = 1 ∨ place = 2 ∨ place = 3 := by omega
  rcases places with rfl | rfl | rfl | rfl <;> exact ofBits_bits _

/-- The function that the standard describes, on the words of a state and over the
table of constants in use. -/
def onState (state : Vector UInt32 4) (block : List UInt8) : Vector UInt32 4 :=
  toState (compress (LaneHash.Md5.stepConstants.map bits) (ofState 0 state) block)

theorem compress_eq_onState (state : Vector UInt32 4) (block : List UInt8) :
    LaneHash.Md5.compress state block = onState state block := by
  rw [onState, ← ofState_compress, toState_ofState]

end Md5

namespace Sha2

variable {α : Type} [Word α] {width : Nat} [BitWord α width]

@[inherit_doc Sha1.onState]
def onState (member : Member width) (state : Vector α 8) (block : List UInt8) : Vector α 8 :=
  EightWords.toState (compress member (EightWords.ofState state) block)

theorem compress_eq_onState {member : Member width} {variant : LaneHash.Sha2.Variant α}
    (describes : Describes member variant) (state : Vector α 8) (block : List UInt8) :
    LaneHash.Sha2.compress variant state block = onState member state block := by
  rw [onState, ← ofState_compress describes, EightWords.toState_ofState]

def sha256InUse : Member 32 :=
  sha256 (LaneHash.Sha256.variant.roundConstants.map bits)

def sha512InUse : Member 64 :=
  sha512 (LaneHash.Sha512.variant.roundConstants.map bits)

end Sha2

namespace Sm3

@[inherit_doc Sha1.onState]
def onState (state : Vector UInt32 8) (block : List UInt8) : Vector UInt32 8 :=
  EightWords.toState (compress (EightWords.ofState state) block)

theorem compress_eq_onState (state : Vector UInt32 8) (block : List UInt8) :
    LaneHash.Sm3.compress state block = onState state block := by
  rw [onState, ← ofState_compress, EightWords.toState_ofState]

end Sm3

end Standards

namespace Algorithm

/-- The compression function that the standard of an algorithm describes. -/
def standard : (algorithm : Algorithm) → algorithm.State → List UInt8 → algorithm.State
  | sha1 => Standards.Sha1.onState
  | sha256 => (Standards.Sha2.onState Standards.Sha2.sha256InUse :
      Vector UInt32 8 → List UInt8 → Vector UInt32 8)
  | sha512 => (Standards.Sha2.onState Standards.Sha2.sha512InUse :
      Vector UInt64 8 → List UInt8 → Vector UInt64 8)
  | md5 => Standards.Md5.onState
  | sm3 => Standards.Sm3.onState

/-- Every algorithm compresses as its standard has it. -/
theorem compress_eq_standard (algorithm : Algorithm) (state : algorithm.State)
    (block : List UInt8) : algorithm.compress state block = algorithm.standard state block := by
  cases algorithm with
  | sha1 => exact Standards.Sha1.compress_eq_onState state block
  | sha256 =>
      exact Standards.Sha2.compress_eq_onState Standards.Sha2.describes_sha256 state block
  | sha512 =>
      exact Standards.Sha2.compress_eq_onState Standards.Sha2.describes_sha512 state block
  | md5 => exact Standards.Md5.compress_eq_onState state block
  | sm3 => exact Standards.Sm3.compress_eq_onState state block

end Algorithm

end LaneHash
