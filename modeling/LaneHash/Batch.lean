import LaneHash.StreamManager

/-!
# Batches

A batch is a list of whole messages.  Their contexts carry their positions, so
that the digests can be put in the order of the messages although contexts get
ready in an order of their own.  A large batch can be cut into shards, each with
a manager to itself.
-/

namespace LaneHash.Batch

variable {algorithm : Algorithm}

/-- Submit messages with their positions, one after the other.  The contexts
that got ready meanwhile come with the manager. -/
def submitAll (manager : StreamManager algorithm Nat) :
    List (List UInt8 × Nat) →
      Traced (Effect Nat) (StreamManager algorithm Nat × List (Context algorithm Nat))
  | [] => return (manager, [])
  | (message, position) :: messages => do
      let submitted ← manager.submit (.fresh position) message .entire
      let later ← submitAll submitted.1 messages
      return (later.1, submitted.2.ready?.toList ++ later.2)

def byPosition (count : Nat) (contexts : List (Context algorithm Nat)) :
    List (Option (List UInt8)) :=
  contexts.foldl (fun digests context => digests.set context.user context.digest?)
    (List.replicate count none)

/-- The digests of messages, in the order of the messages, through one manager
over a provider. -/
def digests (provider : Provider algorithm) (messages : List (List UInt8)) :
    Traced (Effect Nat) (List (List UInt8)) := do
  let submitted ← submitAll (.ofProvider provider) messages.zipIdx
  let drained ← submitted.1.drain
  let found := byPosition messages.length (submitted.2 ++ drained.2)
  Effect.rely (none ∉ found) .digestMissing
  return found.filterMap id

/-- A list cut into pieces of a given size, at least one; the last may be
shorter. -/
def shards {α : Type} (size : Nat) (items : List α) : List (List α) :=
  if items = [] then
    []
  else
    items.take (max size 1) :: shards size (items.drop (max size 1))
  termination_by items.length
  decreasing_by
    next notEmpty =>
      have positive := List.length_pos_iff.mpr notEmpty
      rw [List.length_drop]
      omega

def messagesPerLane : Nat := 4

def shardedDigests (provider : Provider algorithm) (messages : List (List UInt8)) :
    Traced (Effect Nat) (List (List UInt8)) := do
  let found ← (shards (provider.lanes * messagesPerLane) messages).mapM (digests provider)
  return found.flatten

theorem flatten_shards {α : Type} (size : Nat) (items : List α) :
    (shards size items).flatten = items := by
  fun_induction shards size items with
  | case1 => rfl
  | case2 items notEmpty ih => simp [ih]

end LaneHash.Batch
