import LaneHash.Algorithm

/-!
# Message padding

The last block or two of a padded message hold the bytes that were left over, a
`0x80` byte, as few zeros as possible, and the length of the whole message in
bits.  The padding is written in place, into a buffer of two blocks whose front
holds the leftover bytes.
-/

namespace LaneHash.Padding

variable (algorithm : Algorithm)

def finalBlocks (leftover : Nat) : Nat :=
  if leftover + 1 + algorithm.lengthFieldLength ≤ algorithm.blockLength then 1 else 2

/-- Pad the leftover bytes at the front of a buffer, as the end of a message of
`total` bytes.  Bytes behind the final blocks stay as they were. -/
def pad (buffer : List UInt8) (leftover total : Nat) : List UInt8 :=
  let fieldEnd := finalBlocks algorithm leftover * algorithm.blockLength
  let fieldStart := fieldEnd - algorithm.lengthFieldLength
  let marked := overwrite buffer leftover [0x80]
  let cleared := overwrite marked (leftover + 1) (List.replicate (fieldStart - (leftover + 1)) 0)
  overwrite cleared fieldStart
    (algorithm.byteOrder.encode algorithm.lengthFieldLength (8 * total))

/-- What padding needs: a buffer of at least two blocks, and less than one block
of leftover bytes. -/
def Paddable (buffer : List UInt8) (leftover : Nat) : Prop :=
  leftover < algorithm.blockLength ∧ 2 * algorithm.blockLength ≤ buffer.length

instance (buffer : List UInt8) (leftover : Nat) :
    Decidable (Paddable algorithm buffer leftover) :=
  inferInstanceAs (Decidable (_ ∧ _))

end LaneHash.Padding
