import LaneHash.Proofs.FinalBlocks

/-!
# The words of a digest

A digest is written word by word into a row of bytes, in the byte order in which
compression reads the words of a block.  There is a place in the row for every word, and
no place is left over.  So the words of a state can be read back from its digest, and
every row of the right length is the digest of the words in it.
-/

namespace LaneHash

namespace Word

variable {α : Type} [Word α]

/-- Write words into the places of a row of bytes, as long as there are words to write
and whole places to write them to.  The rest of the row stays. -/
def writeOver (order : ByteOrder) : List UInt8 → List α → List UInt8
  | row, word :: words =>
      if byteCount α ≤ row.length then
        toBytes order word ++ writeOver order (row.drop (byteCount α)) words
      else
        row
  | row, [] => row

theorem writeOver_eq_flatMap (order : ByteOrder) {row : List UInt8} {words : List α}
    (places : row.length = words.length * byteCount α) :
    writeOver order row words = words.flatMap (toBytes order) := by
  induction words generalizing row with
  | nil =>
      have empty : row = [] := List.eq_nil_of_length_eq_zero (by simpa using places)
      rw [empty]
      rfl
  | cons word words ih =>
      rw [List.length_cons, Nat.succ_mul] at places
      have rest : (row.drop (byteCount α)).length = words.length * byteCount α := by
        rw [List.length_drop, places, Nat.add_sub_cancel]
      rw [writeOver, if_pos (by omega), ih rest, List.flatMap_cons]

theorem length_flatMap_toBytes (order : ByteOrder) (words : List α) :
    (words.flatMap (toBytes order)).length = words.length * byteCount α := by
  induction words with
  | nil => simp
  | cons word words ih =>
      rw [List.flatMap_cons, List.length_append, ih, length_toBytes, List.length_cons,
        Nat.succ_mul, Nat.add_comm]

theorem drop_flatMap_toBytes (order : ByteOrder) (words : List α) (index : Nat) :
    (words.flatMap (toBytes order)).drop (index * byteCount α) =
      (words.drop index).flatMap (toBytes order) := by
  induction index generalizing words with
  | zero => simp
  | succ index ih =>
      cases words with
      | nil => simp
      | cons word words =>
          rw [List.flatMap_cons, Nat.succ_mul, Nat.add_comm, ← List.drop_drop,
            List.drop_left' (length_toBytes order word), ih, List.drop_succ_cons]

variable [LawfulWord α]

/-- Words that are written one after another are read back at their places. -/
theorem load_flatMap_toBytes (order : ByteOrder) (words : List α) {index : Nat}
    (within : index < words.length) :
    load order (words.flatMap (toBytes order)) index = words[index] := by
  have there : (words.flatMap (toBytes order)).drop (index * byteCount α) =
      order.encode (byteCount α) (toNat words[index]) ++
        (words.drop (index + 1)).flatMap (toBytes order) := by
    rw [drop_flatMap_toBytes, List.drop_eq_getElem_cons within, List.flatMap_cons]
    rfl
  have fits : toNat words[index] < byteRange (byteCount α) := by
    rw [← LawfulWord.ofNat_toNat words[index], LawfulWord.toNat_ofNat]
    exact Nat.mod_lt _ (byteRange_pos _)
  calc load order (words.flatMap (toBytes order)) index
      = ofNat (toNat (load order (words.flatMap (toBytes order)) index : α)) :=
        (LawfulWord.ofNat_toNat _).symm
    _ = ofNat (toNat words[index]) := by rw [toNat_load fits there]
    _ = words[index] := LawfulWord.ofNat_toNat _

theorem toBytes_load (order : ByteOrder) {bytes : List UInt8} {index : Nat}
    (within : (index + 1) * byteCount α ≤ bytes.length) :
    toBytes order (load order bytes index : α) =
      (bytes.drop (index * byteCount α)).take (byteCount α) := by
  have length_eq : ((bytes.drop (index * byteCount α)).take (byteCount α)).length =
      byteCount α := by
    rw [Nat.succ_mul] at within
    rw [List.length_take, List.length_drop]
    omega
  rw [load, toBytes, LawfulWord.toNat_ofNat, ByteOrder.encode_mod]
  generalize (bytes.drop (index * byteCount α)).take (byteCount α) = place at length_eq ⊢
  rw [← length_eq, ByteOrder.encode_decode]

theorem flatMap_toBytes_load (order : ByteOrder) {count : Nat} {bytes : List UInt8}
    (length_eq : bytes.length = count * byteCount α) :
    (List.ofFn fun index : Fin count => (load order bytes index : α)).flatMap (toBytes order) =
      bytes := by
  -- Fewer words give the front of the row.
  have front (fewer : Nat) (bounded : fewer ≤ count) :
      (List.ofFn fun index : Fin fewer => (load order bytes index : α)).flatMap (toBytes order) =
        bytes.take (fewer * byteCount α) := by
    induction fewer with
    | zero => simp
    | succ fewer ih =>
        have within : (fewer + 1) * byteCount α ≤ bytes.length :=
          length_eq ▸ Nat.mul_le_mul_right _ bounded
        rw [List.ofFn_succ_last, List.flatMap_append, List.flatMap_singleton, Fin.val_last,
          toBytes_load order within, Nat.succ_mul, List.take_add]
        exact congrArg (· ++ _) (ih (Nat.le_of_succ_le bounded))
  rw [front count (Nat.le_refl _), ← length_eq, List.take_length]

end Word

namespace Algorithm

variable (algorithm : Algorithm)

/-- The words at the front of a row of bytes, read as compression reads those of a
block. -/
def loadState (bytes : List UInt8) : algorithm.State :=
  Vector.ofFn fun index => Word.load algorithm.byteOrder bytes index

theorem digestLength_eq_words :
    algorithm.digestLength = algorithm.wordCount * Word.byteCount algorithm.StateWord := by
  cases algorithm <;> rfl

theorem length_output (state : algorithm.State) :
    (algorithm.output state).length = algorithm.digestLength := by
  rw [output, Word.length_flatMap_toBytes, Vector.length_toList, digestLength_eq_words]

theorem load_output (state : algorithm.State) {index : Nat}
    (within : index < algorithm.wordCount) :
    Word.load algorithm.byteOrder (algorithm.output state) index = state[index] := by
  rw [output, Word.load_flatMap_toBytes _ _ (by rwa [Vector.length_toList]),
    Vector.getElem_toList]

theorem loadState_output (state : algorithm.State) :
    algorithm.loadState (algorithm.output state) = state := by
  apply Vector.ext
  intro index within
  rw [loadState, Vector.getElem_ofFn]
  exact algorithm.load_output state within

theorem output_loadState {bytes : List UInt8} (length_eq : bytes.length = algorithm.digestLength) :
    algorithm.output (algorithm.loadState bytes) = bytes := by
  rw [digestLength_eq_words] at length_eq
  rw [output, loadState, Vector.toList_ofFn]
  exact Word.flatMap_toBytes_load algorithm.byteOrder length_eq

/-- The digest of a state is a row of zeros written over with its words.  Read by the
loader through which compression reads its blocks, its words are those of the state, and
every row of the same length is the digest of the words that are read from it.  So states
with the same digest are the same. -/
theorem output_reads_back :
    (∀ state : algorithm.State,
      algorithm.output state =
          Word.writeOver algorithm.byteOrder (List.replicate algorithm.digestLength 0)
            state.toList ∧
        (algorithm.output state).length = algorithm.digestLength ∧
        ∀ (index : Nat) (within : index < algorithm.wordCount),
          Word.load algorithm.byteOrder (algorithm.output state) index = state[index]) ∧
      (∀ bytes : List UInt8, bytes.length = algorithm.digestLength →
        algorithm.output (algorithm.loadState bytes) = bytes) ∧
      Function.Injective algorithm.output ∧
      ∀ (state : algorithm.State) (block : List UInt8),
        algorithm.compress state block =
          algorithm.compressWords state (Word.loadSixteen algorithm.byteOrder block) := by
  refine ⟨fun state => ⟨?_, algorithm.length_output state,
      fun index within => algorithm.load_output state within⟩,
    fun bytes => algorithm.output_loadState, ?_, algorithm.compress_eq_compressWords⟩
  · have places : (List.replicate algorithm.digestLength (0 : UInt8)).length =
        state.toList.length * Word.byteCount algorithm.StateWord := by
      rw [List.length_replicate, Vector.length_toList, digestLength_eq_words]
    exact (Word.writeOver_eq_flatMap algorithm.byteOrder places).symm
  · intro state other same
    rw [← algorithm.loadState_output state, same, algorithm.loadState_output]

/-- Sixteen counting bytes are the digest of the words that they make up, each with its
lowest byte first. -/
theorem output_reads_back_counting :
    let bytes : List UInt8 := [0, 1, 2, 3, 4, 5, 6, 7, 8, 9, 10, 11, 12, 13, 14, 15]
    let words : Vector UInt32 4 := #v[0x03020100, 0x07060504, 0x0b0a0908, 0x0f0e0d0c]
    bytes.length = md5.digestLength ∧ md5.loadState bytes = words ∧ md5.output words = bytes := by
  intro bytes words
  have length_eq : bytes.length = md5.digestLength := rfl
  have read : md5.loadState bytes = words := rfl
  refine ⟨length_eq, read, ?_⟩
  rw [← read]
  exact (md5.output_reads_back).2.1 bytes length_eq

end Algorithm

end LaneHash
