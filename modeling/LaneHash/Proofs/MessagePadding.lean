import LaneHash.Padding
import LaneHash.Proofs.Absorption
import Mathlib.Data.Nat.Find

/-!
# Padded messages

A padded message is the message itself, a `0x80` byte, the fewest zeros that
leave room for the length at the end of a block, and the length in bits.  That
is said here without buffers, and the digest of a message with it.  The padding
written into a buffer of leftover bytes is the end of the padded message.
-/

namespace LaneHash

theorem take_overwrite {row : List UInt8} {position : Nat} (within : position ≤ row.length)
    (bytes : List UInt8) :
    (overwrite row position bytes).take (position + bytes.length) =
      row.take position ++ bytes := by
  have front : (row.take position ++ bytes).length = position + bytes.length := by
    rw [List.length_append, List.length_take, Nat.min_eq_left within]
  rw [overwrite, ← front, List.take_left]

theorem byteRange_eq_pow (count : Nat) : byteRange count = Nat.pow 2 (8 * count) := by
  induction count with
  | zero => rfl
  | succ count ih =>
      rw [byteRange, ih, Nat.pow_eq, Nat.pow_eq, Nat.mul_succ, Nat.pow_add, Nat.mul_comm]

theorem littleEndianBytes_mod (count value : Nat) :
    littleEndianBytes count (value % byteRange count) = littleEndianBytes count value := by
  have decoded := littleEndianValue_littleEndianBytes count value
  have encoded := littleEndianBytes_littleEndianValue (littleEndianBytes count value)
  rwa [length_littleEndianBytes, decoded] at encoded

theorem ByteOrder.encode_mod (order : ByteOrder) (count value : Nat) :
    order.encode count (value % byteRange count) = order.encode count value := by
  cases order <;> simp [ByteOrder.encode, littleEndianBytes_mod]

namespace Padding

variable (algorithm : Algorithm)

theorem exists_zeroCount (total : Nat) :
    ∃ count, algorithm.blockLength ∣ total + 1 + count + algorithm.lengthFieldLength := by
  let used := total + 1 + algorithm.lengthFieldLength
  refine ⟨used * (algorithm.blockLength - 1), used, ?_⟩
  have positive := algorithm.blockLength_pos
  have rearranged : total + 1 + used * (algorithm.blockLength - 1) +
      algorithm.lengthFieldLength = used * (algorithm.blockLength - 1 + 1) := by
    rw [Nat.mul_add, Nat.mul_one]
    omega
  rw [rearranged, Nat.sub_add_cancel positive, Nat.mul_comm]

/-- The fewest zeros after which the length field ends a block. -/
def zeroCount (total : Nat) : Nat :=
  Nat.find (exists_zeroCount algorithm total)

/-- What follows a message of `total` bytes: the mark, the zeros, and the length
in bits, cut to its field. -/
def padding (total : Nat) : List UInt8 :=
  0x80 :: (List.replicate (zeroCount algorithm total) 0 ++
    algorithm.byteOrder.encode algorithm.lengthFieldLength
      (8 * total % Nat.pow 2 (8 * algorithm.lengthFieldLength)))

theorem lengthFieldLength_lt_blockLength :
    algorithm.lengthFieldLength < algorithm.blockLength := by
  cases algorithm <;> decide

theorem zeroCount_eq (total : Nat) :
    total % algorithm.blockLength + 1 + zeroCount algorithm total +
        algorithm.lengthFieldLength =
      finalBlocks algorithm (total % algorithm.blockLength) * algorithm.blockLength := by
  have positive := algorithm.blockLength_pos
  have fieldBound := lengthFieldLength_lt_blockLength algorithm
  have leftoverBound := Nat.mod_lt total positive
  have division := Nat.div_add_mod total algorithm.blockLength
  generalize total % algorithm.blockLength = leftover at leftoverBound division ⊢
  have shift (count : Nat) :
      algorithm.blockLength ∣ total + 1 + count + algorithm.lengthFieldLength ↔
        algorithm.blockLength ∣ leftover + 1 + count + algorithm.lengthFieldLength := by
    rw [← division, Nat.add_assoc, Nat.add_assoc, Nat.add_assoc,
      Nat.dvd_add_right (Nat.dvd_mul_right _ _), ← Nat.add_assoc, ← Nat.add_assoc]
  -- The final blocks leave room for the field, and fewer zeros would end it
  -- inside a block.
  have room : leftover + 1 + algorithm.lengthFieldLength ≤
        finalBlocks algorithm leftover * algorithm.blockLength ∧
      (finalBlocks algorithm leftover - 1) * algorithm.blockLength <
        leftover + 1 + algorithm.lengthFieldLength := by
    unfold finalBlocks
    split <;> omega
  have blocksPositive : 0 < finalBlocks algorithm leftover := by
    unfold finalBlocks
    split <;> omega
  obtain ⟨fewer, blocksEq⟩ := Nat.exists_eq_add_of_lt blocksPositive
  rw [Nat.zero_add] at blocksEq
  rw [blocksEq, Nat.add_sub_cancel, Nat.add_mul, Nat.one_mul] at room
  rw [blocksEq, Nat.add_mul, Nat.one_mul]
  have found : zeroCount algorithm total = fewer * algorithm.blockLength +
      algorithm.blockLength - (leftover + 1 + algorithm.lengthFieldLength) := by
    refine (Nat.find_eq_iff _).mpr ⟨(shift _).mpr ?_, fun count smaller divides => ?_⟩
    · refine ⟨fewer + 1, ?_⟩
      rw [Nat.mul_add, Nat.mul_one, Nat.mul_comm _ fewer]
      omega
    · obtain ⟨multiple, multipleEq⟩ := (shift count).mp divides
      rcases Nat.lt_or_ge fewer multiple with above | below
      · have large := Nat.mul_le_mul_left algorithm.blockLength above
        rw [Nat.mul_succ, Nat.mul_comm _ fewer] at large
        omega
      · have small := Nat.mul_le_mul_left algorithm.blockLength below
        rw [Nat.mul_comm _ fewer] at small
        omega
  rw [found]
  omega

theorem finalBlocks_bounds {buffer : List UInt8} {leftover : Nat}
    (paddable : Paddable algorithm buffer leftover) :
    leftover + 1 + algorithm.lengthFieldLength ≤
        finalBlocks algorithm leftover * algorithm.blockLength ∧
      finalBlocks algorithm leftover * algorithm.blockLength ≤ buffer.length := by
  have fieldBound := lengthFieldLength_lt_blockLength algorithm
  obtain ⟨leftoverBound, room⟩ := paddable
  unfold finalBlocks
  split <;> omega

/-- Neither the mark nor the zeros lengthen the buffer. -/
theorem length_cleared {buffer : List UInt8} {leftover : Nat}
    (paddable : Paddable algorithm buffer leftover) :
    (overwrite buffer leftover [0x80]).length = buffer.length ∧
      (overwrite (overwrite buffer leftover [0x80]) (leftover + 1)
        (List.replicate (finalBlocks algorithm leftover * algorithm.blockLength -
          algorithm.lengthFieldLength - (leftover + 1)) 0)).length = buffer.length := by
  obtain ⟨fieldBound, blocksBound⟩ := finalBlocks_bounds algorithm paddable
  have marked : (overwrite buffer leftover [0x80]).length = buffer.length :=
    length_overwrite (by rw [List.length_singleton]; omega)
  refine ⟨marked, ?_⟩
  rw [length_overwrite (by rw [List.length_replicate]; omega), marked]

theorem length_pad {buffer : List UInt8} {leftover : Nat}
    (paddable : Paddable algorithm buffer leftover) (total : Nat) :
    (pad algorithm buffer leftover total).length = buffer.length := by
  obtain ⟨fieldBound, blocksBound⟩ := finalBlocks_bounds algorithm paddable
  obtain ⟨-, cleared⟩ := length_cleared algorithm paddable
  rw [pad, length_overwrite (by rw [ByteOrder.length_encode]; omega), cleared]

/-- The final blocks are the leftover bytes, the mark, zeros, and the field; what
else was in the buffer does not matter. -/
theorem take_pad_of_paddable {buffer : List UInt8} {leftover : Nat}
    (paddable : Paddable algorithm buffer leftover) (total : Nat) :
    (pad algorithm buffer leftover total).take
        (finalBlocks algorithm leftover * algorithm.blockLength) =
      buffer.take leftover ++ 0x80 ::
        (List.replicate (finalBlocks algorithm leftover * algorithm.blockLength -
            algorithm.lengthFieldLength - (leftover + 1)) 0 ++
          algorithm.byteOrder.encode algorithm.lengthFieldLength (8 * total)) := by
  obtain ⟨fieldBound, blocksBound⟩ := finalBlocks_bounds algorithm paddable
  rw [pad]
  generalize finalBlocks algorithm leftover * algorithm.blockLength = fieldEnd
    at fieldBound blocksBound ⊢
  have markedLength : (overwrite buffer leftover [0x80]).length = buffer.length :=
    length_overwrite (by rw [List.length_singleton]; omega)
  have marked : (overwrite buffer leftover [0x80]).take (leftover + 1) =
      buffer.take leftover ++ [0x80] :=
    take_overwrite (by omega) [0x80]
  generalize overwrite buffer leftover [0x80] = row at markedLength marked ⊢
  generalize zerosEq : fieldEnd - algorithm.lengthFieldLength - (leftover + 1) = zeros
  have clearedLength : (overwrite row (leftover + 1) (List.replicate zeros 0)).length =
      row.length :=
    length_overwrite (by rw [List.length_replicate]; omega)
  have cleared := take_overwrite (show leftover + 1 ≤ row.length by omega)
    (List.replicate zeros 0)
  rw [marked, List.length_replicate] at cleared
  generalize overwrite row (leftover + 1) (List.replicate zeros 0) = row
    at clearedLength cleared ⊢
  have field := take_overwrite (show fieldEnd - algorithm.lengthFieldLength ≤ row.length by omega)
    (algorithm.byteOrder.encode algorithm.lengthFieldLength (8 * total))
  rw [ByteOrder.length_encode, Nat.sub_add_cancel (by omega)] at field
  rw [field, show fieldEnd - algorithm.lengthFieldLength = leftover + 1 + zeros by omega, cleared]
  simp only [List.append_assoc, List.cons_append, List.nil_append]

theorem take_pad {buffer : List UInt8} {total : Nat}
    (paddable : Paddable algorithm buffer (total % algorithm.blockLength)) :
    (pad algorithm buffer (total % algorithm.blockLength) total).take
        (finalBlocks algorithm (total % algorithm.blockLength) * algorithm.blockLength) =
      buffer.take (total % algorithm.blockLength) ++ padding algorithm total := by
  have filled := zeroCount_eq algorithm total
  have zeros : finalBlocks algorithm (total % algorithm.blockLength) * algorithm.blockLength -
      algorithm.lengthFieldLength - (total % algorithm.blockLength + 1) =
        zeroCount algorithm total := by
    omega
  rw [take_pad_of_paddable algorithm paddable, zeros, padding, ← byteRange_eq_pow,
    ByteOrder.encode_mod]

end Padding

namespace Algorithm

variable (algorithm : Algorithm)

/-- A message with its padding. -/
def padded (message : List UInt8) : List UInt8 :=
  message ++ Padding.padding algorithm message.length

/-- The digest of a message: its padded blocks absorbed one after the other. -/
def digest (message : List UInt8) : List UInt8 :=
  algorithm.output
    ((algorithm.blocks (algorithm.padded message)).foldl algorithm.compress
      algorithm.initialState)

end Algorithm

end LaneHash
