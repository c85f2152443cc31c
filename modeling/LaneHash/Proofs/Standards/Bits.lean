import LaneHash.Proofs.FinalBlocks

/-!
# Words as rows of bits

The standards of hash functions compute with rows of bits.  Machine words are such
rows, and compute as they do; a message block is a row of words in a byte order.
Loops over the words of a schedule, and windows that slide along it, are brought to
the form in which standards number their rounds.
-/

namespace LaneHash

/-- Machine words that are rows of a number of bits. -/
class BitWord (α : Type) [Word α] (width : outParam Nat) where
  bits : α → BitVec width
  ofBits : BitVec width → α
  ofBits_bits : ∀ word, ofBits (bits word) = word
  byteCount_eq : Word.byteCount α = width / 8
  bits_ofNat : ∀ value, bits (Word.ofNat value) = BitVec.ofNat width value
  bits_add : ∀ x y : α, bits (x + y) = bits x + bits y
  bits_and : ∀ x y : α, bits (x &&& y) = bits x &&& bits y
  bits_or : ∀ x y : α, bits (x ||| y) = bits x ||| bits y
  bits_xor : ∀ x y : α, bits (x ^^^ y) = bits x ^^^ bits y
  bits_not : ∀ x : α, bits (~~~x) = ~~~bits x
  bits_rotateLeft : ∀ (x : α) (amount : Nat),
    bits (Word.rotateLeft x amount) = (bits x).rotateLeft amount
  bits_rotateRight : ∀ (x : α) (amount : Nat),
    bits (Word.rotateRight x amount) = (bits x).rotateRight amount
  bits_shiftRight : ∀ (x : α) (amount : Nat), amount < width →
    bits (Word.shiftRight x amount) = bits x >>> amount

namespace Standards

/-- The number that bytes stand for, the most significant first. -/
def bigEndian (bytes : List UInt8) : Nat :=
  bytes.foldl (fun value byte => 256 * value + byte.toNat) 0

def littleEndian (bytes : List UInt8) : Nat :=
  bytes.foldr (fun byte value => byte.toNat + 256 * value) 0

/-- The words of a message block, numbered from zero. -/
def messageWord (value : List UInt8 → Nat) (width : Nat) (block : List UInt8) (place : Nat) :
    BitVec width :=
  .ofNat width (value ((block.drop (place * (width / 8))).take (width / 8)))

/-- Eight words in named registers. -/
@[ext]
structure EightWords (width : Nat) where
  a : BitVec width
  b : BitVec width
  c : BitVec width
  d : BitVec width
  e : BitVec width
  f : BitVec width
  g : BitVec width
  h : BitVec width

end Standards

section Rotations

variable {width : Nat}

/-- Words are shifted by amounts below their width, so the second half of a rotation
by nothing is no shift rather than one that loses all bits.  Joined with the first
half that is the same. -/
theorem rotateLeft_eq (positive : 0 < width) (x : BitVec width) (amount : Nat) :
    x <<< (amount % width) ||| x >>> ((width - amount % width) % width) =
      x.rotateLeft amount := by
  rw [BitVec.rotateLeft_def]
  by_cases whole : amount % width = 0
  · simp [whole, BitVec.ushiftRight_eq_zero]
  · have within := Nat.mod_lt amount positive
    rw [Nat.mod_eq_of_lt (by omega : width - amount % width < width)]

theorem rotateRight_eq (positive : 0 < width) (x : BitVec width) (amount : Nat) :
    x >>> (amount % width) ||| x <<< ((width - amount % width) % width) =
      x.rotateRight amount := by
  rw [BitVec.rotateRight_def]
  by_cases whole : amount % width = 0
  · simp [whole, BitVec.shiftLeft_eq_zero]
  · have within := Nat.mod_lt amount positive
    rw [Nat.mod_eq_of_lt (by omega : width - amount % width < width)]

end Rotations

section Instances

theorem toBitVec_shiftLeft_32 (x : UInt32) (amount : Nat) :
    (x <<< UInt32.ofNat amount).toBitVec = x.toBitVec <<< (amount % 32) := by
  rw [UInt32.toBitVec_shiftLeft, BitVec.shiftLeft_eq', UInt32.toBitVec_ofNat']
  simp

theorem toBitVec_shiftRight_32 (x : UInt32) (amount : Nat) :
    (x >>> UInt32.ofNat amount).toBitVec = x.toBitVec >>> (amount % 32) := by
  rw [UInt32.toBitVec_shiftRight, BitVec.ushiftRight_eq', UInt32.toBitVec_ofNat']
  simp

theorem toBitVec_shiftLeft_64 (x : UInt64) (amount : Nat) :
    (x <<< UInt64.ofNat amount).toBitVec = x.toBitVec <<< (amount % 64) := by
  rw [UInt64.toBitVec_shiftLeft, BitVec.shiftLeft_eq', UInt64.toBitVec_ofNat']
  simp

theorem toBitVec_shiftRight_64 (x : UInt64) (amount : Nat) :
    (x >>> UInt64.ofNat amount).toBitVec = x.toBitVec >>> (amount % 64) := by
  rw [UInt64.toBitVec_shiftRight, BitVec.ushiftRight_eq', UInt64.toBitVec_ofNat']
  simp

instance : BitWord UInt32 32 where
  bits := UInt32.toBitVec
  ofBits := UInt32.ofBitVec
  ofBits_bits _ := rfl
  byteCount_eq := rfl
  bits_ofNat := UInt32.toBitVec_ofNat'
  bits_add _ _ := UInt32.toBitVec_add
  bits_and := UInt32.toBitVec_and
  bits_or := UInt32.toBitVec_or
  bits_xor := UInt32.toBitVec_xor
  bits_not _ := UInt32.toBitVec_not
  bits_rotateLeft x amount := by
    rw [← rotateLeft_eq (by decide), ← toBitVec_shiftLeft_32, ← toBitVec_shiftRight_32]
    exact UInt32.toBitVec_or _ _
  bits_rotateRight x amount := by
    rw [← rotateRight_eq (by decide), ← toBitVec_shiftLeft_32, ← toBitVec_shiftRight_32]
    exact UInt32.toBitVec_or _ _
  bits_shiftRight x amount within := by
    have shifted := toBitVec_shiftRight_32 x amount
    rw [Nat.mod_eq_of_lt within] at shifted
    exact shifted

instance : BitWord UInt64 64 where
  bits := UInt64.toBitVec
  ofBits := UInt64.ofBitVec
  ofBits_bits _ := rfl
  byteCount_eq := rfl
  bits_ofNat := UInt64.toBitVec_ofNat'
  bits_add _ _ := UInt64.toBitVec_add
  bits_and := UInt64.toBitVec_and
  bits_or := UInt64.toBitVec_or
  bits_xor := UInt64.toBitVec_xor
  bits_not _ := UInt64.toBitVec_not
  bits_rotateLeft x amount := by
    rw [← rotateLeft_eq (by decide), ← toBitVec_shiftLeft_64, ← toBitVec_shiftRight_64]
    exact UInt64.toBitVec_or _ _
  bits_rotateRight x amount := by
    rw [← rotateRight_eq (by decide), ← toBitVec_shiftLeft_64, ← toBitVec_shiftRight_64]
    exact UInt64.toBitVec_or _ _
  bits_shiftRight x amount within := by
    have shifted := toBitVec_shiftRight_64 x amount
    rw [Nat.mod_eq_of_lt within] at shifted
    exact shifted

end Instances

section Rows

variable {α : Type} {count place : Nat}

theorem nth_eq_getElem (words : Vector α (count + 1)) (within : place < count + 1) :
    Word.nth words place = words[place] := by
  simp only [Word.nth, Nat.mod_eq_of_lt within]
  rfl

theorem nth_congr (words : Vector α (count + 1)) {other : Nat}
    (same : place % (count + 1) = other % (count + 1)) :
    Word.nth words place = Word.nth words other := by
  simp only [Word.nth, same]

theorem nth_zipWith (combine : α → α → α) (words others : Vector α (count + 1)) :
    Word.nth (words.zipWith combine others) place =
      combine (Word.nth words place) (Word.nth others place) :=
  Vector.getElem_zipWith _

end Rows

namespace Standards

variable {α : Type} [Word α] {width : Nat} [BitWord α width]

open BitWord

theorem littleEndian_eq (bytes : List UInt8) : littleEndian bytes = littleEndianValue bytes := by
  induction bytes with
  | nil => rfl
  | cons byte bytes ih =>
      rw [littleEndianValue, ← ih]
      rfl

theorem bigEndian_eq (bytes : List UInt8) :
    bigEndian bytes = littleEndianValue bytes.reverse := by
  rw [← littleEndian_eq, littleEndian, List.foldr_reverse, bigEndian]
  congr 1
  funext value byte
  omega

theorem bits_load_big (block : List UInt8) (place : Nat) :
    bits (Word.load .big block place : α) = messageWord bigEndian width block place := by
  rw [Word.load, bits_ofNat, byteCount_eq, messageWord, bigEndian_eq]
  rfl

theorem bits_load_little (block : List UInt8) (place : Nat) :
    bits (Word.load .little block place : α) = messageWord littleEndian width block place := by
  rw [Word.load, bits_ofNat, byteCount_eq, messageWord, littleEndian_eq]
  rfl

def EightWords.ofState (words : Vector α 8) : EightWords width :=
  ⟨bits (Word.nth words 0), bits (Word.nth words 1), bits (Word.nth words 2),
    bits (Word.nth words 3), bits (Word.nth words 4), bits (Word.nth words 5),
    bits (Word.nth words 6), bits (Word.nth words 7)⟩

/-- Constants are looked up in a table of words as in a table of their bits. -/
theorem bits_getD (table : List α) (place : Nat) :
    bits (table.getD place (Word.ofNat 0)) = (table.map bits).getD place 0 := by
  rw [List.getD_eq_getElem?_getD, List.getD_eq_getElem?_getD, List.getElem?_map]
  cases table[place]? with
  | none => exact bits_ofNat 0
  | some word => rfl

theorem bits_nth_zipWith_add {count place : Nat} (words others : Vector α (count + 1)) :
    bits (Word.nth (words.zipWith (· + ·) others) place) =
      bits (Word.nth others place) + bits (Word.nth words place) := by
  rw [nth_zipWith, bits_add, BitVec.add_comm]

end Standards

section Loops

/-- A loop seen from outside goes on as what is seen of it does. -/
theorem foldl_range_seen {σ ρ : Type} (seen : Nat → σ → ρ) {count : Nat}
    {next : σ → Nat → σ} {follow : ρ → Nat → ρ}
    (goesOn : ∀ round < count, ∀ state,
      seen (round + 1) (next state round) = follow (seen round state) round)
    (first : σ) :
    seen count ((List.range count).foldl next first) =
      (List.range count).foldl follow (seen 0 first) := by
  induction count with
  | zero => rfl
  | succ count ih =>
      have earlier := ih fun round within => goesOn round (Nat.lt_succ_of_lt within)
      rw [List.range_succ, List.foldl_append, List.foldl_append, ← earlier]
      exact goesOn count (Nat.lt_succ_self count) _

theorem zipIdx_map_range {β : Type} (item : Nat → β) (count : Nat) :
    ((List.range count).map item).zipIdx =
      (List.range count).map fun round => (item round, round) := by
  apply List.ext_getElem
  · simp
  · intro place _ _
    simp

theorem zip_map_range {β γ : Type} (items : List β) (default : β) (item : Nat → γ) :
    items.zip ((List.range items.length).map item) =
      (List.range items.length).map fun round => (items.getD round default, item round) := by
  apply List.ext_getElem
  · simp
  · intro place within _
    have inside : place < items.length := by simpa using within
    simp [inside]

theorem zipIdx_eq_map_range {β : Type} (items : List β) (default : β) :
    items.zipIdx =
      (List.range items.length).map fun round => (items.getD round default, round) := by
  apply List.ext_getElem
  · simp
  · intro place within _
    have inside : place < items.length := by simpa using within
    simp [inside]

end Loops

namespace Schedule

variable {α : Type}

/-- The window after a number of slides. -/
def windowAt (next : Vector α 16 → α) (window : Vector α 16) : Nat → Vector α 16
  | 0 => window
  | round + 1 => slide (windowAt next window round) (next (windowAt next window round))

theorem windowAt_slide (next : Vector α 16 → α) (window : Vector α 16) (round : Nat) :
    windowAt next (slide window (next window)) round = windowAt next window (round + 1) := by
  induction round with
  | zero => rfl
  | succ round ih =>
      rw [windowAt, ih]
      rfl

theorem windows_eq (next : Vector α 16 → α) (count : Nat) (window : Vector α 16) :
    windows next count window = (List.range count).map (windowAt next window) := by
  induction count generalizing window with
  | zero => rfl
  | succ count ih =>
      rw [windows, ih, List.range_succ_eq_map, List.map_cons, List.map_map]
      congr 1
      apply List.map_congr_left
      intro round _
      exact windowAt_slide next window round

theorem words_eq (next : Vector α 16 → α) (count : Nat) (window : Vector α 16) :
    words next count window =
      (List.range count).map fun round => Word.nth (windowAt next window round) 0 := by
  rw [words, windows_eq, List.map_map]
  rfl

theorem nth_slide (window : Vector α 16) (newest : α) {place : Nat} (within : place < 16) :
    Word.nth (slide window newest) place =
      if place = 15 then newest else Word.nth window (place + 1) := by
  rw [nth_eq_getElem _ within, slide]
  by_cases last : place = 15
  · subst last
    simp
  · rw [if_neg last, nth_eq_getElem _ (by omega), Vector.getElem_push_lt (by omega),
      Vector.getElem_eraseIdx]
    simp

variable [Word α] {width : Nat} [BitWord α width]

open BitWord Word

/-- A window that slides by a recurrence shows sixteen words in turn of the sequence
that begins with the first window and obeys the recurrence. -/
theorem bits_nth_windowAt {next : Vector α 16 → α} {window : Vector α 16}
    {scheduled : Nat → BitVec width}
    (begins : ∀ place < 16, bits (nth window place) = scheduled place)
    (goesOn : ∀ (round : Nat) (current : Vector α 16),
      (∀ place < 16, bits (nth current place) = scheduled (round + place)) →
        bits (next current) = scheduled (round + 16))
    (round : Nat) :
    ∀ place < 16, bits (nth (windowAt next window round) place) = scheduled (round + place) := by
  induction round with
  | zero =>
      intro place within
      rw [Nat.zero_add]
      exact begins place within
  | succ round ih =>
      intro place within
      rw [windowAt, nth_slide _ _ within]
      by_cases last : place = 15
      · subst last
        rw [if_pos rfl]
        exact goesOn round _ ih
      · rw [if_neg last, ih (place + 1) (by omega), Nat.add_right_comm, Nat.add_assoc]

end Schedule

end LaneHash
