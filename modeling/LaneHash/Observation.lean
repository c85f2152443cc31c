import LaneHash.Diagnostics.Recorder
import LaneHash.Effect

/-!
# Observing the engine

A recorder that attends to the engine logs the diagnostic of every effect, and
observes the trace event behind it if tracing is on.  Provider calls can be
noted in short.  Effects do not depend on who attends to them.
-/

namespace LaneHash

/-- A provider call in short: the number of lanes that took part, the blocks for
each, and the first byte of each. -/
structure Call where
  lanes : Nat
  blocks : Nat
  firstBytes : List UInt8
  deriving DecidableEq, Repr

namespace Call

def ofData (data : List (List UInt8)) (blocks : Nat) : Call :=
  ⟨data.length, blocks, data.filterMap List.head?⟩

def ofEffect? {U : Type} : Effect U → Option Call
  | .call shares blocks => some (ofData (shares.map Prod.snd) blocks)
  | _ => none

end Call

namespace Recorder

variable {U : Type}

def logEffect (recorder : Recorder) (effect : Effect U) : Recorder :=
  match effect.diagnostic? with
  | some event => recorder.log event
  | none => recorder

def observeEffect (recorder : Recorder) (effect : Effect U) : Recorder :=
  match effect.traceEvent? with
  | some event => recorder.observe event
  | none => recorder

def attend (tracing : Bool) (recorder : Recorder) (effect : Effect U) : Recorder :=
  if tracing then
    (recorder.logEffect effect).observeEffect effect
  else
    recorder.logEffect effect

/-- The recorder after it has attended to effects in their order. -/
def attendAll (tracing : Bool) (recorder : Recorder) (effects : List (Effect U)) : Recorder :=
  effects.foldl (attend tracing) recorder

end Recorder

end LaneHash
