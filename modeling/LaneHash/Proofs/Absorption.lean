import LaneHash.Provider

/-!
# Laws of absorption

A row of bytes that ends with a whole block can be absorbed in parts, and bytes
that fill no block leave the state alone.  Everything that is cut up between
lanes, calls and buffers is put together again by these two laws.
-/

namespace LaneHash

theorem pieces_append {size : Nat} (count more : Nat) (front back : List UInt8)
    (length_eq : front.length = count * size) :
    pieces size (count + more) (front ++ back) =
      pieces size count front ++ pieces size more back := by
  induction count generalizing front with
  | zero =>
      have empty : front = [] := List.eq_nil_of_length_eq_zero (by omega)
      subst front
      simp [pieces]
  | succ count ih =>
      rw [Nat.succ_mul] at length_eq
      have enough : size ≤ front.length := by omega
      have rest : (front.drop size).length = count * size := by
        rw [List.length_drop]
        omega
      rw [Nat.add_right_comm]
      simp only [pieces, List.take_append_of_le_length enough,
        List.drop_append_of_le_length enough, List.cons_append, ih _ rest]

namespace Algorithm

variable (algorithm : Algorithm)

theorem blocks_append {front : List UInt8} (whole : algorithm.blockLength ∣ front.length)
    (back : List UInt8) :
    algorithm.blocks (front ++ back) = algorithm.blocks front ++ algorithm.blocks back := by
  obtain ⟨count, length_eq⟩ := whole
  have positive := algorithm.blockLength_pos
  have split : (front ++ back).length / algorithm.blockLength =
      count + back.length / algorithm.blockLength := by
    rw [List.length_append, length_eq, Nat.mul_add_div positive]
  have counted : front.length / algorithm.blockLength = count := by
    rw [length_eq, Nat.mul_div_cancel_left _ positive]
  simp only [blocks, split, counted]
  exact pieces_append count _ front back (by rw [length_eq, Nat.mul_comm])

theorem blocks_of_length_lt {bytes : List UInt8} (short : bytes.length < algorithm.blockLength) :
    algorithm.blocks bytes = [] := by
  simp [blocks, Nat.div_eq_of_lt short, pieces]

@[simp]
theorem absorb_nil (state : algorithm.State) : algorithm.absorb state [] = state := by
  simp [absorb, blocks, pieces]

/-- Whole blocks can be absorbed apart from what follows them. -/
theorem absorb_append {front : List UInt8} (whole : algorithm.blockLength ∣ front.length)
    (state : algorithm.State) (back : List UInt8) :
    algorithm.absorb state (front ++ back) =
      algorithm.absorb (algorithm.absorb state front) back := by
  simp only [absorb, algorithm.blocks_append whole, List.foldl_append]

/-- A partial block at the end is not absorbed. -/
theorem absorb_append_of_length_lt {front back : List UInt8}
    (whole : algorithm.blockLength ∣ front.length)
    (short : back.length < algorithm.blockLength) (state : algorithm.State) :
    algorithm.absorb state (front ++ back) = algorithm.absorb state front := by
  rw [algorithm.absorb_append whole, absorb, algorithm.blocks_of_length_lt short,
    List.foldl_nil]

end Algorithm

end LaneHash
