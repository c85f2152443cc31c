import LaneHash.Diagnostics.TraceEvent
import LaneHash.Traced

/-!
# Effects of the engine

Apart from the values they return, operations of the engine call a provider and
report on their work.  They also rely on facts about their own state, such as a
free lane being at hand; a reliance that fails shows as a `Breach` in the trace,
and an engine that keeps its invariants never shows one.

Effects name the owner of the context they concern.  What an observer is told is
a text made of an effect: a diagnostic, and for some effects a trace event as
well.
-/

namespace LaneHash

/-- The facts on which operations of the engine rely, each by the name of its failure. -/
inductive Breach where
  | residueOverrun
  | residueOverfull
  | residueTooShort
  | unpaddable
  | workOverrun
  | callOutOfContract
  | noFreeLane
  | laneOutOfRange
  | laneAlreadyFree
  | digestMissing
  deriving DecidableEq, Repr

/-- What an operation of the engine does besides returning a value.  In a call a provider
absorbs a number of blocks for each of several owners; the others report what has been
done. -/
inductive Effect (U : Type) where
  | call (shares : List (U × List UInt8)) (blocks : Nat)
  | admitted (owner : U) (lane length : Nat)
  | advanced (active blocks : Nat)
  | reaped (owner : U) (lane : Nat)
  | filled (owner : U)
  | wholeBlocks (owner : U) (blocks : Nat)
  | padded (owner : U) (leftover blocks : Nat)
  | completed (owner : U) (length : Nat)
  | breach (cause : Breach)
  deriving DecidableEq, Repr

namespace Effect

variable {U : Type}

def diagnostic? : Effect U → Option Diagnostic
  | call _ _ => none
  | admitted _ lane length =>
      some ⟨.sched, 2, "admit " ++ toString length ++ " bytes into lane " ++ toString lane⟩
  | advanced active blocks =>
      some ⟨.sched, 1, "advance " ++ toString active ++ " lanes by " ++ toString blocks ++
        " blocks"⟩
  | reaped _ lane => some ⟨.sched, 2, "reap lane " ++ toString lane⟩
  | filled _ => some ⟨.ctx, 2, "residue filled a block"⟩
  | wholeBlocks _ blocks =>
      some ⟨.ctx, 2, "job of " ++ toString blocks ++ " whole blocks"⟩
  | padded _ leftover blocks =>
      some ⟨.ctx, 1, "padded " ++ toString leftover ++ " residue bytes into " ++
        toString blocks ++ " final blocks"⟩
  | completed _ length =>
      some ⟨.ctx, 1, "completed " ++ toString length ++ " byte message"⟩
  | breach _ => none

/-- The trace event that an effect appears as, behind its diagnostic. -/
def traceEvent? : Effect U → Option TraceEvent
  | advanced _ _ => some (.ofEngine .sched "advance")
  | reaped _ _ => some (.ofEngine .sched "reap")
  | padded _ _ _ => some (.ofEngine .ctx "padded final blocks")
  | _ => none

def isBreach : Effect U → Bool
  | breach _ => true
  | _ => false

def rely (fact : Prop) [Decidable fact] (cause : Breach) : Traced (Effect U) Unit :=
  Traced.emitUnless fact (.breach cause)

end Effect

end LaneHash
