import LaneHash.Proofs.MessagePadding

/-!
# Messages recovered from their padded blocks

The length field at the end of a padded message tells where the message ends, as
long as the length fits the field.  So a message can be read back from its padded
blocks, and since blocks in front of them would not change the field, the padded
blocks of one message never end those of another.
-/

namespace LaneHash

theorem flatten_pieces (size count : Nat) (bytes : List UInt8) :
    (pieces size count bytes).flatten = bytes.take (count * size) := by
  induction count generalizing bytes with
  | zero => simp [pieces]
  | succ count ih =>
      rw [pieces, List.flatten_cons, ih, Nat.succ_mul, Nat.add_comm, List.take_add]

theorem Algorithm.flatten_blocks (algorithm : Algorithm) {bytes : List UInt8}
    (whole : algorithm.blockLength ∣ bytes.length) :
    (algorithm.blocks bytes).flatten = bytes := by
  rw [blocks, flatten_pieces, Nat.div_mul_cancel whole, List.take_length]

theorem Algorithm.blocks_append_of_length_lt (algorithm : Algorithm) {front back : List UInt8}
    (whole : algorithm.blockLength ∣ front.length)
    (short : back.length < algorithm.blockLength) :
    algorithm.blocks (front ++ back) = algorithm.blocks front := by
  rw [algorithm.blocks_append whole, algorithm.blocks_of_length_lt short, List.append_nil]

theorem Algorithm.split_leftover (algorithm : Algorithm) (message : List UInt8) :
    ∃ front back : List UInt8, message = front ++ back ∧
      algorithm.blockLength ∣ front.length ∧
      back = message.drop (message.length - message.length % algorithm.blockLength) ∧
      back.length = message.length % algorithm.blockLength := by
  have leftoverLe := Nat.mod_le message.length algorithm.blockLength
  refine ⟨message.take (message.length - message.length % algorithm.blockLength), _,
    (List.take_append_drop _ _).symm, ?_, rfl, ?_⟩
  · rw [List.length_take, Nat.min_eq_left (Nat.sub_le _ _)]
    exact Nat.dvd_sub_mod _
  · rw [List.length_drop, Nat.sub_sub_self leftoverLe]

theorem flatten_isSuffix {blocks others : List (List UInt8)} (suffix : blocks <:+ others) :
    blocks.flatten <:+ others.flatten := by
  obtain ⟨front, rfl⟩ := suffix
  exact ⟨front.flatten, by rw [List.flatten_append]⟩

namespace Algorithm

/-- The number of bytes from which on a message is too long: the length in bits
of a shorter one fits the field, and its length in bytes fits 64 bits. -/
def messageLimit : Algorithm → Nat
  | sha512 => Nat.pow 2 64
  | _ => Nat.pow 2 61

variable (algorithm : Algorithm)

theorem messageLimit_fits : 8 * algorithm.messageLimit ≤ byteRange algorithm.lengthFieldLength := by
  cases algorithm <;> decide

theorem length_padded_eq (message : List UInt8) :
    (algorithm.padded message).length =
      message.length + 1 + Padding.zeroCount algorithm message.length +
        algorithm.lengthFieldLength := by
  simp only [padded, Padding.padding, List.length_append, List.length_cons,
    List.length_replicate, ByteOrder.length_encode]
  omega

theorem blockLength_dvd_length_padded (message : List UInt8) :
    algorithm.blockLength ∣ (algorithm.padded message).length := by
  rw [length_padded_eq]
  exact Nat.find_spec (Padding.exists_zeroCount algorithm message.length)

theorem drop_append_padded (front message : List UInt8) :
    (front ++ algorithm.padded message).drop
        ((front ++ algorithm.padded message).length - algorithm.lengthFieldLength) =
      algorithm.byteOrder.encode algorithm.lengthFieldLength (8 * message.length) := by
  have written : front ++ algorithm.padded message =
      (front ++ message ++
        0x80 :: List.replicate (Padding.zeroCount algorithm message.length) 0) ++
        algorithm.byteOrder.encode algorithm.lengthFieldLength (8 * message.length) := by
    rw [padded, Padding.padding, ← byteRange_eq_pow, ByteOrder.encode_mod]
    simp only [List.append_assoc, List.cons_append]
  rw [written]
  exact List.drop_left' (by simp only [List.length_append, ByteOrder.length_encode]; omega)

end Algorithm

namespace Padding

variable (algorithm : Algorithm)

/-- The whole blocks of a message, and then the final blocks that padding makes
of the bytes left over, written over the front of a buffer. -/
def paddedBlocks (buffer message : List UInt8) : List (List UInt8) :=
  let leftover := message.length % algorithm.blockLength
  let filled := overwrite buffer 0 (message.drop (message.length - leftover))
  algorithm.blocks message ++
    algorithm.blocks ((pad algorithm filled leftover message.length).take
      (finalBlocks algorithm leftover * algorithm.blockLength))

def messageLength (bytes : List UInt8) : Nat :=
  algorithm.byteOrder.decode (bytes.drop (bytes.length - algorithm.lengthFieldLength)) / 8

/-- Read a message back from its padded blocks. -/
def recoverMessage (blocks : List (List UInt8)) : List UInt8 :=
  blocks.flatten.take (messageLength algorithm blocks.flatten)

/-- The blocks made of whole blocks and padding in a buffer are those of the
padded message, whatever the buffer held before. -/
theorem paddedBlocks_eq {buffer : List UInt8} (room : 2 * algorithm.blockLength ≤ buffer.length)
    (message : List UInt8) :
    paddedBlocks algorithm buffer message = algorithm.blocks (algorithm.padded message) := by
  obtain ⟨front, back, parts, whole, backEq, backLength⟩ := algorithm.split_leftover message
  have short : back.length < algorithm.blockLength :=
    backLength ▸ Nat.mod_lt _ algorithm.blockLength_pos
  have paddable : Paddable algorithm (overwrite buffer 0 back)
      (message.length % algorithm.blockLength) :=
    ⟨backLength ▸ short, by rwa [length_overwrite (by omega)]⟩
  have filled : (overwrite buffer 0 back).take (message.length % algorithm.blockLength) = back := by
    have taken := take_overwrite (Nat.zero_le buffer.length) back
    rwa [Nat.zero_add, List.take_zero, List.nil_append, backLength] at taken
  have wholeBlocks : algorithm.blocks message = algorithm.blocks front := by
    rw [parts]
    exact algorithm.blocks_append_of_length_lt whole short
  calc paddedBlocks algorithm buffer message
      = algorithm.blocks front ++
          algorithm.blocks (back ++ padding algorithm message.length) := by
        rw [paddedBlocks, ← backEq, take_pad algorithm paddable, filled, wholeBlocks]
    _ = algorithm.blocks (front ++ back ++ padding algorithm message.length) := by
        rw [← algorithm.blocks_append whole, List.append_assoc]
    _ = algorithm.blocks (algorithm.padded message) := by rw [← parts, Algorithm.padded]

theorem flatten_paddedBlocks {buffer : List UInt8}
    (room : 2 * algorithm.blockLength ≤ buffer.length) (message : List UInt8) :
    (paddedBlocks algorithm buffer message).flatten = algorithm.padded message := by
  rw [paddedBlocks_eq algorithm room,
    algorithm.flatten_blocks (algorithm.blockLength_dvd_length_padded message)]

theorem messageLength_append_padded {message : List UInt8}
    (short : message.length < algorithm.messageLimit) (front : List UInt8) :
    messageLength algorithm (front ++ algorithm.padded message) = message.length := by
  have fits := algorithm.messageLimit_fits
  rw [messageLength, algorithm.drop_append_padded, ByteOrder.decode_encode,
    Nat.mod_eq_of_lt (by omega), Nat.mul_div_cancel_left _ (by decide)]

theorem take_messageLength_padded {message : List UInt8}
    (short : message.length < algorithm.messageLimit) :
    (algorithm.padded message).take (messageLength algorithm (algorithm.padded message)) =
      message := by
  have found := messageLength_append_padded algorithm short []
  rw [List.nil_append] at found
  rw [found, Algorithm.padded, List.take_left]

/-- A padded message that ends another is the other: both end with the same
field, so they are of one length. -/
theorem eq_of_padded_isSuffix {message other : List UInt8}
    (short : message.length < algorithm.messageLimit)
    (otherShort : other.length < algorithm.messageLimit)
    (suffix : algorithm.padded message <:+ algorithm.padded other) :
    message = other := by
  -- Whatever stands in front of the suffix, the fields are the same place of the
  -- same row.
  obtain ⟨front, joined⟩ := suffix
  have sameLength : message.length = other.length := by
    rw [← messageLength_append_padded algorithm short front, joined]
    exact messageLength_append_padded algorithm otherShort []
  have samePadded : algorithm.padded message = algorithm.padded other :=
    List.IsSuffix.eq_of_length ⟨front, joined⟩
      (by rw [algorithm.length_padded_eq, algorithm.length_padded_eq, sameLength])
  rw [← take_messageLength_padded algorithm short, samePadded,
    take_messageLength_padded algorithm otherShort]

/-- Messages can be read back from their padded blocks, and the padded blocks of
a message are neither those of another nor the end of them. -/
theorem paddedBlocks_suffix_free {message other buffer otherBuffer : List UInt8}
    (short : message.length < algorithm.messageLimit)
    (otherShort : other.length < algorithm.messageLimit)
    (room : 2 * algorithm.blockLength ≤ buffer.length)
    (otherRoom : 2 * algorithm.blockLength ≤ otherBuffer.length) :
    recoverMessage algorithm (paddedBlocks algorithm buffer message) = message ∧
      (message ≠ other →
        paddedBlocks algorithm buffer message ≠ paddedBlocks algorithm otherBuffer other ∧
          ¬ paddedBlocks algorithm buffer message <:+
            paddedBlocks algorithm otherBuffer other) := by
  have flat := flatten_paddedBlocks algorithm room message
  have otherFlat := flatten_paddedBlocks algorithm otherRoom other
  have suffixFree (suffix : paddedBlocks algorithm buffer message <:+
      paddedBlocks algorithm otherBuffer other) : message = other := by
    have flatSuffix := flatten_isSuffix suffix
    rw [flat, otherFlat] at flatSuffix
    exact eq_of_padded_isSuffix algorithm short otherShort flatSuffix
  refine ⟨?_, fun distinct => ⟨fun same => ?_, fun suffix => distinct (suffixFree suffix)⟩⟩
  · rw [recoverMessage, flat]
    exact take_messageLength_padded algorithm short
  · exact distinct (suffixFree (same ▸ List.suffix_rfl))

/-- The padding of the empty message, taken as a message of its own, is told
apart from it. -/
theorem paddedBlocks_suffix_free_padding_as_message :
    let empty : List UInt8 := []
    let other : List UInt8 := 0x80 :: List.replicate 63 0
    let blocks := paddedBlocks .sha1 (List.replicate 128 0) empty
    let otherBlocks := paddedBlocks .sha1 (List.replicate 128 0xff) other
    other.length < Algorithm.sha1.messageLimit ∧
      empty ≠ other ∧
      blocks = [other] ∧
      recoverMessage .sha1 blocks = empty ∧
      blocks ≠ otherBlocks ∧
      ¬ blocks <:+ otherBlocks := by
  intro empty other blocks otherBlocks
  have short : empty.length < Algorithm.sha1.messageLimit := by decide +kernel
  have otherShort : other.length < Algorithm.sha1.messageLimit := by decide +kernel
  have room : 2 * Algorithm.sha1.blockLength ≤ (List.replicate 128 (0 : UInt8)).length := by
    decide +kernel
  have otherRoom : 2 * Algorithm.sha1.blockLength ≤ (List.replicate 128 (0xff : UInt8)).length := by
    decide +kernel
  have distinct : empty ≠ other := (List.cons_ne_nil _ _).symm
  obtain ⟨recovered, apart⟩ := paddedBlocks_suffix_free .sha1 short otherShort room otherRoom
  exact ⟨otherShort, distinct, by decide +kernel, recovered, apart distinct⟩

end Padding

end LaneHash
