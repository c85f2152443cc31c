import LaneHash.Proofs.MessagePadding

/-!
# The final blocks of a message

Padding written into a buffer fills the fewest blocks that have room for it and
leaves the rest of the buffer alone.  The length field is two words wide, so
compression meets it as the last two of the sixteen words it reads from the last
block.
-/

namespace LaneHash

theorem drop_overwrite {row bytes : List UInt8} {position place : Nat}
    (within : position + bytes.length ≤ row.length) (behind : position + bytes.length ≤ place) :
    (overwrite row position bytes).drop place = row.drop place := by
  have front : (row.take position ++ bytes).length = position + bytes.length := by
    rw [List.length_append, List.length_take, Nat.min_eq_left (by omega)]
  rw [overwrite, List.drop_append, front, List.drop_of_length_le (by omega), List.nil_append,
    List.drop_drop, Nat.add_sub_cancel' behind]

theorem littleEndianBytes_add (count more value : Nat) :
    littleEndianBytes (count + more) value =
      littleEndianBytes count value ++ littleEndianBytes more (value / byteRange count) := by
  induction count generalizing value with
  | zero => simp [littleEndianBytes, byteRange]
  | succ count ih =>
      rw [Nat.add_right_comm]
      simp only [littleEndianBytes, ih, List.cons_append, byteRange, Nat.div_div_eq_div_mul]

theorem byteRange_pos (count : Nat) : 0 < byteRange count := by
  induction count with
  | zero => decide
  | succ count ih => rw [byteRange]; omega

theorem byteRange_add (count more : Nat) :
    byteRange (count + more) = byteRange count * byteRange more := by
  induction count with
  | zero => simp [byteRange]
  | succ count ih => rw [Nat.add_right_comm, byteRange, byteRange, ih, Nat.mul_assoc]

namespace ByteOrder

/-- A number that fills two fields of `count` bytes, as the two numbers in them:
its low half comes first if its low bytes do. -/
def halves : ByteOrder → (count value : Nat) → Nat × Nat
  | big, count, value => (value / byteRange count, value % byteRange count)
  | little, count, value => (value % byteRange count, value / byteRange count)

theorem encode_twice (order : ByteOrder) (count value : Nat) :
    order.encode (count + count) value =
      order.encode count (order.halves count value).1 ++
        order.encode count (order.halves count value).2 := by
  cases order <;> simp [encode, halves, littleEndianBytes_add, littleEndianBytes_mod]

theorem halves_lt (order : ByteOrder) {count value : Nat}
    (fits : value < byteRange (count + count)) :
    (order.halves count value).1 < byteRange count ∧
      (order.halves count value).2 < byteRange count := by
  have low := Nat.mod_lt value (byteRange_pos count)
  have high : value / byteRange count < byteRange count :=
    Nat.div_lt_of_lt_mul (byteRange_add count count ▸ fits)
  cases order
  · exact ⟨high, low⟩
  · exact ⟨low, high⟩

end ByteOrder

namespace Word

variable {α : Type} [Word α]

theorem nth_loadSixteen (order : ByteOrder) (block : List UInt8) {place : Nat}
    (within : place < 16) :
    nth (loadSixteen order block : Vector α 16) place = load order block place := by
  have counted : place % (15 + 1) = place := Nat.mod_eq_of_lt within
  calc nth (loadSixteen order block : Vector α 16) place
      = (loadSixteen order block : Vector α 16)[place] := by
        simp only [nth, counted]
        rfl
    _ = load order block place := by simp only [loadSixteen, Vector.getElem_ofFn]

variable [LawfulWord α]

theorem toNat_load {order : ByteOrder} {bytes rest : List UInt8} {index value : Nat}
    (fits : value < byteRange (byteCount α))
    (there : bytes.drop (index * byteCount α) = order.encode (byteCount α) value ++ rest) :
    toNat (load order bytes index : α) = value := by
  rw [load, there, List.take_left' (ByteOrder.length_encode _ _ _), ByteOrder.decode_encode,
    LawfulWord.toNat_ofNat, Nat.mod_mod, Nat.mod_eq_of_lt fits]

/-- A number two words wide at the end of a row is read back as its halves. -/
theorem toNat_load_twice {order : ByteOrder} {bytes : List UInt8} {index value : Nat}
    (fits : value < byteRange (byteCount α + byteCount α))
    (there : bytes.drop (index * byteCount α) =
      order.encode (byteCount α + byteCount α) value) :
    (toNat (load order bytes index : α), toNat (load order bytes (index + 1) : α)) =
      order.halves (byteCount α) value := by
  obtain ⟨firstFits, secondFits⟩ := order.halves_lt fits
  rw [ByteOrder.encode_twice] at there
  have next : bytes.drop ((index + 1) * byteCount α) =
      order.encode (byteCount α) (order.halves (byteCount α) value).2 ++ [] := by
    rw [Nat.succ_mul, ← List.drop_drop, there, List.drop_left' (ByteOrder.length_encode _ _ _),
      List.append_nil]
  rw [toNat_load firstFits there, toNat_load secondFits next]

end Word

namespace Algorithm

variable (algorithm : Algorithm)

/-- What compression makes of a state and the sixteen words of a block. -/
def compressWords : (algorithm : Algorithm) → algorithm.State →
    Vector algorithm.StateWord 16 → algorithm.State
  | sha1, state, words =>
      state.zipWith (· + ·)
        ((Schedule.words Sha1.nextWord 80 words).zipIdx.foldl Sha1.step state)
  | sha256, state, words =>
      let rounds := Sha256.variant.roundConstants
      state.zipWith (· + ·)
        ((rounds.zip (Schedule.words (Sha2.nextWord Sha256.variant) rounds.length words)).foldl
          (Sha2.step Sha256.variant) state)
  | sha512, state, words =>
      let rounds := Sha512.variant.roundConstants
      state.zipWith (· + ·)
        ((rounds.zip (Schedule.words (Sha2.nextWord Sha512.variant) rounds.length words)).foldl
          (Sha2.step Sha512.variant) state)
  | md5, state, words =>
      state.zipWith (· + ·) (Md5.stepConstants.zipIdx.foldl (Md5.step words) state)
  | sm3, state, words =>
      state.zipWith (· ^^^ ·)
        ((Schedule.windows Sm3.nextWord 64 words).zipIdx.foldl Sm3.step state)

/-- Compression reads a block through the word loader of its byte order and in
no other way. -/
theorem compress_eq_compressWords (state : algorithm.State) (block : List UInt8) :
    algorithm.compress state block =
      algorithm.compressWords state (Word.loadSixteen algorithm.byteOrder block) := by
  cases algorithm <;> rfl

theorem lengthFieldLength_eq_two_words :
    algorithm.lengthFieldLength =
      Word.byteCount algorithm.StateWord + Word.byteCount algorithm.StateWord := by
  cases algorithm <;> rfl

theorem blockLength_eq_sixteen_words :
    algorithm.blockLength = 16 * Word.byteCount algorithm.StateWord := by
  cases algorithm <;> rfl

end Algorithm

namespace Padding

variable (algorithm : Algorithm)

theorem finalBlocks_eq_one_or_two (leftover : Nat) :
    finalBlocks algorithm leftover = 1 ∨ finalBlocks algorithm leftover = 2 := by
  unfold finalBlocks
  split
  · exact .inl rfl
  · exact .inr rfl

theorem finalBlocks_le {leftover fewer : Nat}
    (room : leftover + 1 + algorithm.lengthFieldLength ≤ fewer * algorithm.blockLength) :
    finalBlocks algorithm leftover ≤ fewer := by
  have positive : 0 < fewer := Nat.pos_of_ne_zero fun none => by
    rw [none, Nat.zero_mul] at room
    omega
  unfold finalBlocks
  split
  next => exact positive
  next full =>
    refine Nat.lt_of_le_of_ne positive fun one => full ?_
    rwa [← one, Nat.one_mul] at room

theorem drop_pad {buffer : List UInt8} {leftover : Nat}
    (paddable : Paddable algorithm buffer leftover) (total : Nat) :
    (pad algorithm buffer leftover total).drop
        (finalBlocks algorithm leftover * algorithm.blockLength) =
      buffer.drop (finalBlocks algorithm leftover * algorithm.blockLength) := by
  obtain ⟨fieldBound, blocksBound⟩ := finalBlocks_bounds algorithm paddable
  obtain ⟨marked, cleared⟩ := length_cleared algorithm paddable
  rw [pad, drop_overwrite, drop_overwrite, drop_overwrite] <;>
    simp only [ByteOrder.length_encode, List.length_replicate, List.length_singleton, cleared,
      marked] <;> omega

/-- The number that the length field holds: the length in bits, cut to the
field. -/
def bitLength (total : Nat) : Nat :=
  8 * total % Nat.pow 2 (8 * algorithm.lengthFieldLength)

theorem bitLength_lt (total : Nat) :
    bitLength algorithm total < byteRange algorithm.lengthFieldLength := by
  rw [bitLength, ← byteRange_eq_pow]
  exact Nat.mod_lt _ (byteRange_pos _)

def lastBlock (buffer : List UInt8) (leftover : Nat) : List UInt8 :=
  (buffer.drop ((finalBlocks algorithm leftover - 1) * algorithm.blockLength)).take
    algorithm.blockLength

theorem drop_lastBlock_pad {buffer : List UInt8} {leftover : Nat}
    (paddable : Paddable algorithm buffer leftover) (total : Nat) :
    (lastBlock algorithm (pad algorithm buffer leftover total) leftover).drop
        (algorithm.blockLength - algorithm.lengthFieldLength) =
      algorithm.byteOrder.encode algorithm.lengthFieldLength (bitLength algorithm total) := by
  obtain ⟨fieldBound, blocksBound⟩ := finalBlocks_bounds algorithm paddable
  have fieldShort := lengthFieldLength_lt_blockLength algorithm
  have written := take_pad_of_paddable algorithm paddable total
  obtain ⟨before, beforeEq⟩ : ∃ before, finalBlocks algorithm leftover = before + 1 := by
    rcases finalBlocks_eq_one_or_two algorithm leftover with one | two
    · exact ⟨0, one⟩
    · exact ⟨1, two⟩
  rw [lastBlock, beforeEq, Nat.add_sub_cancel]
  rw [beforeEq, Nat.succ_mul] at written fieldBound
  have split : ((pad algorithm buffer leftover total).drop (before * algorithm.blockLength)).take
      algorithm.blockLength =
        ((pad algorithm buffer leftover total).take
          (before * algorithm.blockLength + algorithm.blockLength)).drop
            (before * algorithm.blockLength) := by
    rw [List.drop_take, Nat.add_sub_cancel_left]
  have fieldPlace : before * algorithm.blockLength +
      (algorithm.blockLength - algorithm.lengthFieldLength) =
        (buffer.take leftover ++ 0x80 :: List.replicate (before * algorithm.blockLength +
          algorithm.blockLength - algorithm.lengthFieldLength - (leftover + 1)) 0).length := by
    obtain ⟨leftoverBound, room⟩ := paddable
    simp only [List.length_append, List.length_take, List.length_cons, List.length_replicate]
    omega
  rw [split, written, List.drop_drop, ← List.cons_append, ← List.append_assoc, fieldPlace,
    List.drop_left, bitLength, ← byteRange_eq_pow, ByteOrder.encode_mod]

/-- Padding takes the fewest blocks with room for the leftover bytes, the mark
and the length field, one or two.  They hold those with zeros between, nothing
behind them is touched, and compression of the last one reads the two halves of
the length as its last two words. -/
theorem pad_fills_fewest_blocks {buffer : List UInt8} {leftover : Nat}
    (paddable : Paddable algorithm buffer leftover) (total : Nat) :
    let count := finalBlocks algorithm leftover
    let padded := pad algorithm buffer leftover total
    let last := lastBlock algorithm padded leftover
    let words := Word.loadSixteen algorithm.byteOrder last
    (leftover + 1 + algorithm.lengthFieldLength ≤ count * algorithm.blockLength ∧
        ∀ fewer, leftover + 1 + algorithm.lengthFieldLength ≤ fewer * algorithm.blockLength →
          count ≤ fewer) ∧
      (count = 1 ∨ count = 2) ∧
      padded.take (count * algorithm.blockLength) =
        buffer.take leftover ++ 0x80 ::
          (List.replicate (count * algorithm.blockLength - algorithm.lengthFieldLength -
              (leftover + 1)) 0 ++
            algorithm.byteOrder.encode algorithm.lengthFieldLength
              (bitLength algorithm total)) ∧
      padded.length = buffer.length ∧
      padded.drop (count * algorithm.blockLength) =
        buffer.drop (count * algorithm.blockLength) ∧
      (∀ state, algorithm.compress state last = algorithm.compressWords state words) ∧
      (Word.toNat (Word.nth words 14), Word.toNat (Word.nth words 15)) =
        algorithm.byteOrder.halves (Word.byteCount algorithm.StateWord)
          (bitLength algorithm total) := by
  intro count padded last words
  have filled := take_pad_of_paddable algorithm paddable total
  rw [← ByteOrder.encode_mod, byteRange_eq_pow] at filled
  have field := drop_lastBlock_pad algorithm paddable total
  have fits := bitLength_lt algorithm total
  rw [algorithm.lengthFieldLength_eq_two_words] at fits
  have fieldPlace : algorithm.blockLength - algorithm.lengthFieldLength =
      14 * Word.byteCount algorithm.StateWord := by
    rw [algorithm.blockLength_eq_sixteen_words, algorithm.lengthFieldLength_eq_two_words]
    omega
  rw [fieldPlace, algorithm.lengthFieldLength_eq_two_words] at field
  refine ⟨⟨(finalBlocks_bounds algorithm paddable).1, fun _ => finalBlocks_le algorithm⟩,
    finalBlocks_eq_one_or_two algorithm leftover, filled, length_pad algorithm paddable total,
    drop_pad algorithm paddable total, fun state => algorithm.compress_eq_compressWords state last,
    ?_⟩
  rw [Word.nth_loadSixteen _ _ (by decide), Word.nth_loadSixteen _ _ (by decide)]
  exact Word.toNat_load_twice fits field

/-- Behind 57 leftover bytes the field goes to a second block, and a length of
2^61 + 121 bytes is cut to 968 bits. -/
theorem pad_fills_fewest_blocks_second_block :
    let padded := pad .md5 (List.replicate 130 0xff) 57 2305843009213694073
    let words := Word.loadSixteen .little (lastBlock .md5 padded 57)
    Paddable .md5 (List.replicate 130 0xff) 57 ∧
      padded.take 128 = List.replicate 57 0xff ++ 0x80 ::
        (List.replicate 62 0 ++ [0xc8, 0x03, 0, 0, 0, 0, 0, 0]) ∧
      padded.drop 128 = [0xff, 0xff] ∧
      ((Word.nth words 14 : UInt32).toNat, (Word.nth words 15 : UInt32).toNat) = (968, 0) := by
  have paddable : Paddable .md5 (List.replicate 130 0xff) 57 := by decide +kernel
  obtain ⟨-, -, filled, -, behind, -, read⟩ :=
    pad_fills_fewest_blocks .md5 paddable 2305843009213694073
  exact ⟨paddable, filled.trans (by decide +kernel), behind.trans (by decide +kernel),
    read.trans (by decide +kernel)⟩

end Padding

end LaneHash
