import LaneHash.Algorithm

/-!
# Block providers

A provider absorbs whole blocks for several independent lanes in one call.  All
lanes of a call move by the same number of blocks, and no lane sees another:
that is the law a `Provider` carries, and with it a scheduler may cut work into
calls as it likes.
-/

namespace LaneHash

structure LaneShare (algorithm : Algorithm) where
  state : algorithm.State
  data : List UInt8

/-- Calls that a provider of a given width answers for: not more shares than it
has lanes, and exactly the announced number of blocks in each. -/
def Rectangular (algorithm : Algorithm) (lanes : Nat) (shares : List (LaneShare algorithm))
    (blocks : Nat) : Prop :=
  shares.length ≤ max lanes 1 ∧
    ∀ share ∈ shares, share.data.length = blocks * algorithm.blockLength

instance (algorithm : Algorithm) (lanes : Nat) (shares : List (LaneShare algorithm))
    (blocks : Nat) : Decidable (Rectangular algorithm lanes shares blocks) :=
  inferInstanceAs (Decidable (_ ∧ _))

/-- A way to absorb blocks for several lanes at once.  A call gives the states of the lanes
in the order of the shares, and every lane absorbs its own share and nothing else. -/
structure Provider (algorithm : Algorithm) where
  lanes : Nat
  transform : List (LaneShare algorithm) → (blocks : Nat) → List algorithm.State
  transform_eq_absorb : ∀ shares blocks, Rectangular algorithm lanes shares blocks →
    transform shares blocks = shares.map fun share => algorithm.absorb share.state share.data

namespace Provider

variable {algorithm : Algorithm}

def maxLanes : Nat := 16

def laneByLane (shares : List (LaneShare algorithm)) (blocks : Nat) : List algorithm.State :=
  shares.map fun share =>
    ((algorithm.blocks share.data).take blocks).foldl algorithm.compress share.state

theorem laneByLane_eq_absorb {lanes : Nat} (shares : List (LaneShare algorithm)) (blocks : Nat)
    (rectangular : Rectangular algorithm lanes shares blocks) :
    laneByLane shares blocks =
      shares.map fun share => algorithm.absorb share.state share.data := by
  refine List.map_congr_left fun share member => ?_
  have blockCount : (algorithm.blocks share.data).length = blocks := by
    simp [Algorithm.blocks, rectangular.2 share member,
      Nat.mul_div_cancel _ algorithm.blockLength_pos]
  rw [List.take_of_length_le (by omega)]
  rfl

def ofWidth (lanes : Nat) : Provider algorithm where
  lanes := lanes
  transform := laneByLane
  transform_eq_absorb := laneByLane_eq_absorb

/-- The portable provider, whose width is kept between one lane and the most
it offers. -/
def portable (lanes : Nat) : Provider algorithm :=
  ofWidth (max 1 (min lanes maxLanes))

/-- Make a call that the provider answers for; other calls have no answer. -/
def transform? (provider : Provider algorithm) (shares : List (LaneShare algorithm))
    (blocks : Nat) : Option (List algorithm.State) :=
  if Rectangular algorithm provider.lanes shares blocks then
    some (provider.transform shares blocks)
  else
    none

end Provider

end LaneHash
