import LaneHash.Bytes

/-!
# Machine words

Compression functions compute with words of 32 or 64 bits: sums modulo the
word size, bitwise operations, rotations and shifts.  `Word` names what they
use, so that one definition can serve both widths, and `LawfulWord` says that a
word is the same thing as a number below `byteRange byteCount`.
-/

namespace LaneHash

/-- Unsigned machine words of a fixed number of bytes.  Numbers are cut to the word size, and
left is towards the most significant bit. -/
class Word (α : Type) extends Add α, AndOp α, OrOp α, XorOp α, Complement α where
  byteCount : Nat
  ofNat : Nat → α
  toNat : α → Nat
  rotateLeft : α → Nat → α
  rotateRight : α → Nat → α
  shiftRight : α → Nat → α

instance : Word UInt32 where
  byteCount := 4
  ofNat := UInt32.ofNat
  toNat := UInt32.toNat
  rotateLeft word amount :=
    word <<< UInt32.ofNat amount ||| word >>> UInt32.ofNat (32 - amount % 32)
  rotateRight word amount :=
    word >>> UInt32.ofNat amount ||| word <<< UInt32.ofNat (32 - amount % 32)
  shiftRight word amount := word >>> UInt32.ofNat amount

instance : Word UInt64 where
  byteCount := 8
  ofNat := UInt64.ofNat
  toNat := UInt64.toNat
  rotateLeft word amount :=
    word <<< UInt64.ofNat amount ||| word >>> UInt64.ofNat (64 - amount % 64)
  rotateRight word amount :=
    word >>> UInt64.ofNat amount ||| word <<< UInt64.ofNat (64 - amount % 64)
  shiftRight word amount := word >>> UInt64.ofNat amount

/-- Words are in one-to-one correspondence with the numbers that fit their
bytes. -/
class LawfulWord (α : Type) [Word α] : Prop where
  ofNat_toNat : ∀ word : α, Word.ofNat (Word.toNat word) = word
  toNat_ofNat : ∀ value : Nat,
    Word.toNat (Word.ofNat value : α) = value % byteRange (Word.byteCount α)

instance : LawfulWord UInt32 where
  ofNat_toNat _ := UInt32.ofNat_toNat
  toNat_ofNat value := by simp [Word.toNat, Word.ofNat, Word.byteCount, byteRange]

instance : LawfulWord UInt64 where
  ofNat_toNat _ := UInt64.ofNat_toNat
  toNat_ofNat value := by simp [Word.toNat, Word.ofNat, Word.byteCount, byteRange]

namespace Word

variable {α : Type} [Word α]

def toBytes (order : ByteOrder) (word : α) : List UInt8 :=
  order.encode (byteCount α) (toNat word)

/-- Read the word at position `index` of a row of words written one after
another. -/
def load (order : ByteOrder) (bytes : List UInt8) (index : Nat) : α :=
  ofNat (order.decode ((bytes.drop (index * byteCount α)).take (byteCount α)))

def loadSixteen (order : ByteOrder) (block : List UInt8) : Vector α 16 :=
  Vector.ofFn fun index => load order block index

/-- The word at a place of a row, counting round at its end. -/
def nth {count : Nat} (words : Vector α (count + 1)) (place : Nat) : α :=
  words.get ⟨place % (count + 1), Nat.mod_lt place count.succ_pos⟩

@[simp]
theorem length_toBytes (order : ByteOrder) (word : α) :
    (toBytes order word).length = byteCount α := by
  simp [toBytes]

end Word

end LaneHash
