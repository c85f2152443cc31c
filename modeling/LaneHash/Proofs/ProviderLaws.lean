import LaneHash.Proofs.PaddingRecovery

/-!
# Laws of provider calls

A call moves every lane on by its own blocks.  What becomes of a lane follows from its
share alone: the other lanes of the call, and their order, have no part in it.  A call
can be made in two, the second of which goes on from the states that the first has left.
-/

namespace LaneHash

variable {algorithm : Algorithm}

theorem length_of_mem_pieces {size count : Nat} {bytes piece : List UInt8}
    (enough : count * size ≤ bytes.length) (member : piece ∈ pieces size count bytes) :
    piece.length = size := by
  induction count generalizing bytes with
  | zero => cases member
  | succ count ih =>
      rw [Nat.succ_mul] at enough
      rcases List.mem_cons.mp member with rfl | later
      · rw [List.length_take]
        omega
      · refine ih ?_ later
        rw [List.length_drop]
        omega

theorem Algorithm.exists_rows (algorithm : Algorithm) {bytes : List UInt8} {count : Nat}
    (length_eq : bytes.length = count * algorithm.blockLength) :
    ∃ rows : List (List UInt8), rows.flatten = bytes ∧ rows.length = count ∧
      (∀ row ∈ rows, row.length = algorithm.blockLength) ∧
      ∀ state, algorithm.absorb state bytes = rows.foldl algorithm.compress state := by
  have counted : bytes.length / algorithm.blockLength = count := by
    rw [length_eq, Nat.mul_div_cancel _ algorithm.blockLength_pos]
  refine ⟨algorithm.blocks bytes, ?_, ?_, fun row member => ?_, fun _ => rfl⟩
  · exact algorithm.flatten_blocks ⟨count, by rw [length_eq, Nat.mul_comm]⟩
  · rw [blocks, length_pieces, counted]
  · rw [blocks, counted] at member
    exact length_of_mem_pieces (Nat.le_of_eq length_eq.symm) member

namespace LaneShare

def front (count : Nat) (share : LaneShare algorithm) : LaneShare algorithm where
  state := share.state
  data := share.data.take (count * algorithm.blockLength)

/-- The share of the blocks behind the first ones, for a lane that has come to a
state. -/
def rest (count : Nat) (share : LaneShare algorithm) (state : algorithm.State) :
    LaneShare algorithm where
  state := state
  data := share.data.drop (count * algorithm.blockLength)

def absorbed (share : LaneShare algorithm) : algorithm.State :=
  algorithm.absorb share.state share.data

theorem absorbed_rest_front {share : LaneShare algorithm} {count : Nat}
    (enough : count * algorithm.blockLength ≤ share.data.length) :
    (share.rest count (share.front count).absorbed).absorbed = share.absorbed := by
  have whole : algorithm.blockLength ∣
      (share.data.take (count * algorithm.blockLength)).length := by
    rw [List.length_take, Nat.min_eq_left enough]
    exact Nat.dvd_mul_left _ _
  have parts := algorithm.absorb_append whole share.state
    (share.data.drop (count * algorithm.blockLength))
  rw [List.take_append_drop] at parts
  exact parts.symm

end LaneShare

section Splitting

variable {lanes first second : Nat} {shares : List (LaneShare algorithm)}

theorem Rectangular.enough (rectangular : Rectangular algorithm lanes shares (first + second))
    {share : LaneShare algorithm} (member : share ∈ shares) :
    first * algorithm.blockLength ≤ share.data.length := by
  rw [rectangular.2 share member, Nat.add_mul]
  exact Nat.le_add_right _ _

theorem Rectangular.fronts (rectangular : Rectangular algorithm lanes shares (first + second)) :
    Rectangular algorithm lanes (shares.map (LaneShare.front first)) first := by
  refine ⟨by rw [List.length_map]; exact rectangular.1, List.forall_mem_map.mpr ?_⟩
  intro share member
  exact List.length_take_of_le (rectangular.enough member)

theorem Rectangular.rests (rectangular : Rectangular algorithm lanes shares (first + second))
    (reached : LaneShare algorithm → algorithm.State) :
    Rectangular algorithm lanes (shares.map fun share => share.rest first (reached share))
      second := by
  refine ⟨by rw [List.length_map]; exact rectangular.1, List.forall_mem_map.mpr ?_⟩
  intro share member
  change (share.data.drop _).length = _
  rw [List.length_drop, rectangular.2 share member, Nat.add_mul, Nat.add_sub_cancel_left]

end Splitting

namespace Provider

variable {provider : Provider algorithm} {shares : List (LaneShare algorithm)}
  {blocks first second : Nat}

theorem transform?_of_rectangular
    (rectangular : Rectangular algorithm provider.lanes shares blocks) :
    provider.transform? shares blocks = some (shares.map LaneShare.absorbed) := by
  rw [transform?, if_pos rectangular, provider.transform_eq_absorb shares blocks rectangular]
  rfl

/-- A call can be made in two. -/
theorem transform?_add (rectangular : Rectangular algorithm provider.lanes shares (first + second)) :
    ((provider.transform? (shares.map (LaneShare.front first)) first).bind fun states =>
        provider.transform? (List.zipWith (LaneShare.rest first) shares states) second) =
      provider.transform? shares (first + second) := by
  rw [transform?_of_rectangular rectangular.fronts, transform?_of_rectangular rectangular,
    Option.bind_some, List.map_map, List.zipWith_map_right, List.zipWith_self,
    transform?_of_rectangular (rectangular.rests _), List.map_map]
  refine congrArg some (List.map_congr_left fun share member => ?_)
  exact LaneShare.absorbed_rest_front (rectangular.enough member)

/-- The portable provider answers any call with up to as many lanes as it has, each of
which brings the announced number of blocks.  Every lane compresses its blocks in order,
from its own state on.  A lane with the same share comes to the same state in any other
call, whatever lanes there are beside it and in whatever order.  And wherever the blocks
are parted, a call for the first of them and a call for the others lead to the same
states. -/
theorem portable_absorbs_lane_by_lane {width : Nat} {shares : List (LaneShare algorithm)}
    {blocks : Nat} (fits : shares.length ≤ (portable width : Provider algorithm).lanes)
    (filled : ∀ share ∈ shares, share.data.length = blocks * algorithm.blockLength) :
    ∃ states : List algorithm.State,
      (portable width).transform? shares blocks = some states ∧
      states.length = shares.length ∧
      (∀ (lane : Nat) (share : LaneShare algorithm), shares[lane]? = some share →
        (∃ rows : List (List UInt8), rows.flatten = share.data ∧ rows.length = blocks ∧
          (∀ row ∈ rows, row.length = algorithm.blockLength) ∧
          states[lane]? = some (rows.foldl algorithm.compress share.state)) ∧
        ∀ (others : List (LaneShare algorithm)) (other : Nat),
          others.length ≤ (portable width : Provider algorithm).lanes →
          (∀ share ∈ others, share.data.length = blocks * algorithm.blockLength) →
          others[other]? = some share →
          ((portable width).transform? others blocks).bind (·[other]?) = states[lane]?) ∧
      ∀ first second : Nat, first + second = blocks →
        (((portable width).transform? (shares.map (LaneShare.front first)) first).bind
          fun early => (portable width).transform?
            (List.zipWith (LaneShare.rest first) shares early) second) = some states := by
  have contract {others : List (LaneShare algorithm)}
      (fits : others.length ≤ (portable width : Provider algorithm).lanes)
      (filled : ∀ share ∈ others, share.data.length = blocks * algorithm.blockLength) :
      Rectangular algorithm (portable width : Provider algorithm).lanes others blocks :=
    ⟨Nat.le_trans fits (Nat.le_max_left _ _), filled⟩
  have lane_eq {others : List (LaneShare algorithm)} {lane : Nat} {share : LaneShare algorithm}
      (there : others[lane]? = some share) :
      (others.map LaneShare.absorbed)[lane]? = some share.absorbed := by
    rw [List.getElem?_map, there]
    rfl
  have rectangular := contract fits filled
  refine ⟨shares.map LaneShare.absorbed, transform?_of_rectangular rectangular,
    List.length_map _, fun lane share there => ⟨?_, ?_⟩, ?_⟩
  · obtain ⟨rows, flatten_eq, length_eq, whole, absorb_eq⟩ :=
      algorithm.exists_rows (filled share (List.mem_of_getElem? there))
    refine ⟨rows, flatten_eq, length_eq, whole, ?_⟩
    rw [lane_eq there, LaneShare.absorbed, absorb_eq]
  · intro others other othersFit othersFilled otherThere
    rw [transform?_of_rectangular (contract othersFit othersFilled), Option.bind_some,
      lane_eq otherThere, lane_eq there]
  · rintro first second rfl
    rw [transform?_add rectangular, transform?_of_rectangular rectangular]

/-- Two lanes of two blocks each, also the other way round, and block by block. -/
theorem portable_absorbs_lane_by_lane_pair :
    let ones : LaneShare .md5 := ⟨Algorithm.md5.initialState, List.replicate 128 1⟩
    let twos : LaneShare .md5 := ⟨Algorithm.md5.initialState, List.replicate 128 2⟩
    let provider : Provider .md5 := portable 2
    [ones, twos].length ≤ provider.lanes ∧
      (∀ share ∈ [ones, twos], share.data.length = 2 * Algorithm.md5.blockLength) ∧
      ∃ states, provider.transform? [ones, twos] 2 = some states ∧ states.length = 2 ∧
        (provider.transform? [twos, ones] 2).bind (·[1]?) = states[0]? ∧
        ((provider.transform? ([ones, twos].map (LaneShare.front 1)) 1).bind fun early =>
          provider.transform? (List.zipWith (LaneShare.rest 1) [ones, twos] early) 1) =
            some states := by
  intro ones twos provider
  have fits : [ones, twos].length ≤ provider.lanes := by decide
  have filled : ∀ share ∈ [ones, twos], share.data.length = 2 * Algorithm.md5.blockLength := by
    decide +kernel
  have turned : ∀ share ∈ [twos, ones], share.data.length = 2 * Algorithm.md5.blockLength := by
    decide +kernel
  obtain ⟨states, answered, length_eq, lanes, parted⟩ := portable_absorbs_lane_by_lane fits filled
  refine ⟨fits, filled, states, answered, length_eq, ?_, parted 1 1 rfl⟩
  exact (lanes 0 ones rfl).2 [twos, ones] 1 fits turned rfl

end Provider

end LaneHash
