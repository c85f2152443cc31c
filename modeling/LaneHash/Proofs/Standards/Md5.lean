import LaneHash.Proofs.Standards.Bits

/-!
# The MD5 standard

RFC 1321 spells out four rounds of sixteen operations.  Each operation changes one
of four named registers, and the registers take turns in the roles they play in it.
-/

namespace LaneHash.Standards.Md5

@[ext]
structure Registers where
  a : BitVec 32
  b : BitVec 32
  c : BitVec 32
  d : BitVec 32

inductive Mixing where
  | f
  | g
  | h
  | i
  deriving DecidableEq

def Mixing.mix (x y z : BitVec 32) : Mixing → BitVec 32
  | f => (x &&& y) ||| (~~~x &&& z)
  | g => (x &&& z) ||| (y &&& ~~~z)
  | h => x ^^^ y ^^^ z
  | i => y ^^^ (x ||| ~~~z)

/-- Which registers play the roles of `a`, `b`, `c` and `d`. -/
inductive Roles where
  | abcd
  | dabc
  | cdab
  | bcda
  deriving DecidableEq

/-- Change the register in the role of `a` to a value made of all four. -/
def Roles.update (value : (a b c d : BitVec 32) → BitVec 32) (r : Registers) :
    Roles → Registers
  | abcd => { r with a := value r.a r.b r.c r.d }
  | dabc => { r with d := value r.d r.a r.b r.c }
  | cdab => { r with c := value r.c r.d r.a r.b }
  | bcda => { r with b := value r.b r.c r.d r.a }

/-- What the standard writes as `[abcd k s i]`. -/
structure Operation where
  roles : Roles
  k : Nat
  s : Nat
  i : Nat
  deriving DecidableEq

def round1 : List Operation := [
  ⟨.abcd, 0, 7, 1⟩, ⟨.dabc, 1, 12, 2⟩, ⟨.cdab, 2, 17, 3⟩, ⟨.bcda, 3, 22, 4⟩,
  ⟨.abcd, 4, 7, 5⟩, ⟨.dabc, 5, 12, 6⟩, ⟨.cdab, 6, 17, 7⟩, ⟨.bcda, 7, 22, 8⟩,
  ⟨.abcd, 8, 7, 9⟩, ⟨.dabc, 9, 12, 10⟩, ⟨.cdab, 10, 17, 11⟩, ⟨.bcda, 11, 22, 12⟩,
  ⟨.abcd, 12, 7, 13⟩, ⟨.dabc, 13, 12, 14⟩, ⟨.cdab, 14, 17, 15⟩, ⟨.bcda, 15, 22, 16⟩]

def round2 : List Operation := [
  ⟨.abcd, 1, 5, 17⟩, ⟨.dabc, 6, 9, 18⟩, ⟨.cdab, 11, 14, 19⟩, ⟨.bcda, 0, 20, 20⟩,
  ⟨.abcd, 5, 5, 21⟩, ⟨.dabc, 10, 9, 22⟩, ⟨.cdab, 15, 14, 23⟩, ⟨.bcda, 4, 20, 24⟩,
  ⟨.abcd, 9, 5, 25⟩, ⟨.dabc, 14, 9, 26⟩, ⟨.cdab, 3, 14, 27⟩, ⟨.bcda, 8, 20, 28⟩,
  ⟨.abcd, 13, 5, 29⟩, ⟨.dabc, 2, 9, 30⟩, ⟨.cdab, 7, 14, 31⟩, ⟨.bcda, 12, 20, 32⟩]

def round3 : List Operation := [
  ⟨.abcd, 5, 4, 33⟩, ⟨.dabc, 8, 11, 34⟩, ⟨.cdab, 11, 16, 35⟩, ⟨.bcda, 14, 23, 36⟩,
  ⟨.abcd, 1, 4, 37⟩, ⟨.dabc, 4, 11, 38⟩, ⟨.cdab, 7, 16, 39⟩, ⟨.bcda, 10, 23, 40⟩,
  ⟨.abcd, 13, 4, 41⟩, ⟨.dabc, 0, 11, 42⟩, ⟨.cdab, 3, 16, 43⟩, ⟨.bcda, 6, 23, 44⟩,
  ⟨.abcd, 9, 4, 45⟩, ⟨.dabc, 12, 11, 46⟩, ⟨.cdab, 15, 16, 47⟩, ⟨.bcda, 2, 23, 48⟩]

def round4 : List Operation := [
  ⟨.abcd, 0, 6, 49⟩, ⟨.dabc, 7, 10, 50⟩, ⟨.cdab, 14, 15, 51⟩, ⟨.bcda, 5, 21, 52⟩,
  ⟨.abcd, 12, 6, 53⟩, ⟨.dabc, 3, 10, 54⟩, ⟨.cdab, 10, 15, 55⟩, ⟨.bcda, 1, 21, 56⟩,
  ⟨.abcd, 8, 6, 57⟩, ⟨.dabc, 15, 10, 58⟩, ⟨.cdab, 6, 15, 59⟩, ⟨.bcda, 13, 21, 60⟩,
  ⟨.abcd, 4, 6, 61⟩, ⟨.dabc, 11, 10, 62⟩, ⟨.cdab, 2, 15, 63⟩, ⟨.bcda, 9, 21, 64⟩]

def operations : List (Mixing × Operation) :=
  round1.map (Mixing.f, ·) ++ round2.map (Mixing.g, ·) ++ round3.map (Mixing.h, ·) ++
    round4.map (Mixing.i, ·)

/-- An operation on the words `x` of a block, with the constants `t` numbered from
one. -/
def operate (x t : Nat → BitVec 32) (registers : Registers) (step : Mixing × Operation) :
    Registers :=
  step.2.roles.update
    (fun a b c d => b + (a + step.1.mix b c d + x step.2.k + t step.2.i).rotateLeft step.2.s)
    registers

def compress (table : List (BitVec 32)) (hash : Registers) (block : List UInt8) : Registers :=
  let x := messageWord littleEndian 32 block
  let t (i : Nat) := table.getD (i - 1) 0
  let last := operations.foldl (operate x t) hash
  { a := last.a + hash.a
    b := last.b + hash.b
    c := last.c + hash.c
    d := last.d + hash.d }

open BitWord Word

/-- An operation by its number, in terms of formulas instead of tables. -/
def operationAt (t : Nat) : Mixing × Operation :=
  (nth #v[Mixing.f, .g, .h, .i] (t / 16),
    { roles := nth #v[Roles.abcd, .dabc, .cdab, .bcda] t
      k := nth #v[t, 5 * t + 1, 3 * t + 5, 7 * t] (t / 16) % 16
      s := nth (nth LaneHash.Md5.rotations (t / 16)) t
      i := t + 1 })

theorem operations_eq : operations = (List.range 64).map operationAt := by
  decide

/-- The registers that hold the words of a state after a number of steps.  With each
step the words move on by one place. -/
def ofState (t : Nat) (words : Vector UInt32 4) : Registers :=
  ⟨bits (nth words t), bits (nth words (t + 1)), bits (nth words (t + 2)),
    bits (nth words (t + 3))⟩

theorem ofState_congr {t other : Nat} (same : t % 4 = other % 4) (words : Vector UInt32 4) :
    ofState t words = ofState other words := by
  apply Registers.ext <;> exact congrArg bits (nth_congr words (by omega))

theorem roles_operationAt {t other : Nat} (same : t % 4 = other % 4) :
    (operationAt t).2.roles = (operationAt other).2.roles :=
  nth_congr _ same

/-- One word is replaced and all move on by one place, so that the register in the
role of `a` changes. -/
theorem ofState_moved (t : Nat) (words : Vector UInt32 4) {newest : UInt32}
    {value : (a b c d : BitVec 32) → BitVec 32}
    (changed : bits newest = value (bits (nth words 0)) (bits (nth words 1))
      (bits (nth words 2)) (bits (nth words 3))) :
    ofState (t + 1) #v[nth words 3, newest, nth words 1, nth words 2] =
      (operationAt t).2.roles.update value (ofState t words) := by
  have turns : t % 4 = 0 ∨ t % 4 = 1 ∨ t % 4 = 2 ∨ t % 4 = 3 := by omega
  rcases turns with first | second | third | fourth
  · rw [ofState_congr (by omega : (t + 1) % 4 = 1 % 4), ofState_congr (by omega : t % 4 = 0 % 4),
      roles_operationAt (by omega : t % 4 = 0 % 4)]
    apply Registers.ext
    · exact changed
    · rfl
    · rfl
    · rfl
  · rw [ofState_congr (by omega : (t + 1) % 4 = 2 % 4), ofState_congr (by omega : t % 4 = 1 % 4),
      roles_operationAt (by omega : t % 4 = 1 % 4)]
    apply Registers.ext
    · rfl
    · rfl
    · rfl
    · exact changed
  · rw [ofState_congr (by omega : (t + 1) % 4 = 3 % 4), ofState_congr (by omega : t % 4 = 2 % 4),
      roles_operationAt (by omega : t % 4 = 2 % 4)]
    apply Registers.ext
    · rfl
    · rfl
    · exact changed
    · rfl
  · rw [ofState_congr (by omega : (t + 1) % 4 = 0 % 4), ofState_congr (by omega : t % 4 = 3 % 4),
      roles_operationAt (by omega : t % 4 = 3 % 4)]
    apply Registers.ext
    · rfl
    · exact changed
    · rfl
    · rfl

theorem fourRounds {t : Nat} (within : t < 64) :
    t / 16 = 0 ∨ t / 16 = 1 ∨ t / 16 = 2 ∨ t / 16 = 3 := by
  omega

theorem bits_roundFunction {t : Nat} (within : t < 64) (b c d : UInt32) :
    bits (LaneHash.Md5.roundFunction (Fin.ofNat 4 (t / 16)) b c d) =
      (operationAt t).1.mix (bits b) (bits c) (bits d) := by
  rw [operationAt]
  rcases fourRounds within with first | second | third | fourth
  · rw [first]
    change bits (b &&& c ||| ~~~b &&& d) = _
    simp only [bits_or, bits_and, bits_not]
    rfl
  · rw [second]
    change bits (d &&& b ||| ~~~d &&& c) = (bits b &&& bits d) ||| (bits c &&& ~~~bits d)
    simp only [bits_or, bits_and, bits_not]
    rw [BitVec.and_comm (bits d), BitVec.and_comm (~~~bits d)]
  · rw [third]
    change bits (b ^^^ c ^^^ d) = _
    simp only [bits_xor]
    rfl
  · rw [fourth]
    change bits (c ^^^ (b ||| ~~~d)) = _
    simp only [bits_xor, bits_or, bits_not]
    rfl

theorem val_wordIndex {t : Nat} (within : t < 64) :
    (LaneHash.Md5.wordIndex (Fin.ofNat 4 (t / 16)) t).val = (operationAt t).2.k := by
  rw [operationAt]
  rcases fourRounds within with round | round | round | round <;> rw [round] <;> rfl

theorem bits_word (block : List UInt8) {t : Nat} (within : t < 64) :
    bits ((loadSixteen .little block : Vector UInt32 16).get
        (LaneHash.Md5.wordIndex (Fin.ofNat 4 (t / 16)) t)) =
      messageWord littleEndian 32 block (operationAt t).2.k := by
  let place := LaneHash.Md5.wordIndex (Fin.ofNat 4 (t / 16)) t
  have read := nth_loadSixteen (α := UInt32) .little block place.isLt
  rw [nth_eq_getElem _ place.isLt] at read
  rw [← val_wordIndex within]
  exact (congrArg bits read).trans (bits_load_little block place.val)

theorem ofState_step (block : List UInt8) (table : List UInt32) {t : Nat} (within : t < 64)
    (words : Vector UInt32 4) :
    ofState (t + 1) (LaneHash.Md5.step (loadSixteen .little block) words
        (table.getD t (ofNat 0), t)) =
      operate (messageWord littleEndian 32 block) (fun i => (table.map bits).getD (i - 1) 0)
        (ofState t words) (operationAt t) := by
  let newest := nth words 1 + rotateLeft
    (LaneHash.Md5.roundFunction (Fin.ofNat 4 (t / 16)) (nth words 1) (nth words 2) (nth words 3) +
      nth words 0 + table.getD t (ofNat 0) +
      (loadSixteen .little block : Vector UInt32 16).get
        (LaneHash.Md5.wordIndex (Fin.ofNat 4 (t / 16)) t)) (operationAt t).2.s
  have stepped : LaneHash.Md5.step (loadSixteen .little block) words
      (table.getD t (ofNat 0), t) = #v[nth words 3, newest, nth words 1, nth words 2] := rfl
  have value : bits newest = bits (nth words 1) + (bits (nth words 0) +
      (operationAt t).1.mix (bits (nth words 1)) (bits (nth words 2)) (bits (nth words 3)) +
      messageWord littleEndian 32 block (operationAt t).2.k +
      (table.map bits).getD (t + 1 - 1) 0).rotateLeft (operationAt t).2.s := by
    rw [bits_add, bits_rotateLeft, bits_add, bits_add, bits_add, bits_roundFunction within,
      bits_word block within, bits_getD]
    congr 2
    ac_rfl
  rw [stepped, operate]
  exact ofState_moved t words value

/-- MD5 compresses as the standard has it. -/
theorem ofState_compress (state : Vector UInt32 4) (block : List UInt8) :
    ofState 0 (LaneHash.Md5.compress state block) =
      compress (LaneHash.Md5.stepConstants.map bits) (ofState 0 state) block := by
  have last : ofState 64 ((List.range 64).foldl
        (fun words t => LaneHash.Md5.step (loadSixteen .little block) words
          (LaneHash.Md5.stepConstants.getD t (ofNat 0), t)) state) =
      (List.range 64).foldl
        (fun registers t => operate (messageWord littleEndian 32 block)
          (fun i => (LaneHash.Md5.stepConstants.map bits).getD (i - 1) 0) registers
          (operationAt t)) (ofState 0 state) := by
    apply foldl_range_seen ofState
    intro t within words
    exact ofState_step block LaneHash.Md5.stepConstants within words
  rw [compress, operations_eq, List.foldl_map, ← last, LaneHash.Md5.compress,
    zipIdx_eq_map_range _ (ofNat 0), List.foldl_map]
  apply Registers.ext <;> exact bits_nth_zipWith_add _ _

end LaneHash.Standards.Md5
