import LaneHash.Proofs.PlacedJobs
import LaneHash.Proofs.SlotConditions

/-!
# What becomes of a piece

The jobs of an accepted piece are absorbed bit by bit, with other messages beside
them, and each of them is made when the one before is done.  What the context will
look like when it comes back is settled all the same when the piece is accepted:
it is what the jobs leave if they are done one after the other and nothing else
goes on.
-/

namespace LaneHash

variable {algorithm : Algorithm} {U : Type}

/-- What a job and those that follow it leave of the context. -/
def Job.conclusion (job : Job algorithm U) : Context algorithm U :=
  if job.isFinal then
    job.finish.context.complete
  else
    match _stepped : (job.finish.context.nextStep job.pending).value with
    | .handBack context => context
    | .work next => next.conclusion
  termination_by job.jobsLeft
  decreasing_by
    exact @Context.jobsLeft_nextStep _ _ job.finish _ ‹_› _stepped

def NextStep.conclusion : NextStep algorithm U → Context algorithm U
  | work job => job.conclusion
  | handBack context => context

/-- What is left of a context when a piece that it accepts has been absorbed. -/
def Context.concluded (context : Context algorithm U) (piece : List UInt8) (flag : Flag) :
    Context algorithm U :=
  ((context.accept flag piece.length).firstStep piece).value.conclusion

namespace NextStep

/-- Where a step stands: work is under way for a context with a status, and the
last job only for a closed message, or a context that is not closed has come to
rest. -/
def Stands (status : Status) : NextStep algorithm U → Prop
  | work job => job.context.status = status ∧ (job.isFinal = true → status = .lastSeen)
  | handBack context => context.status = status ∧ status ≠ .lastSeen

theorem stands_restStep {context : Context algorithm U}
    (sound : context.residue.Sound algorithm) {bytes : List UInt8}
    (room : context.residue.length = 0 ∨
      context.residue.length + bytes.length < algorithm.blockLength) :
    (context.restStep bytes).value.Stands context.status := by
  rcases Context.restStep_cases sound room with
    ⟨-, -, step_eq⟩ | ⟨-, closed, step_eq⟩ | ⟨-, notClosed, step_eq⟩ <;> rw [step_eq]
  · exact ⟨rfl, nofun⟩
  · exact ⟨rfl, fun _ => closed⟩
  · exact ⟨rfl, notClosed⟩

theorem stands_firstStep {context : Context algorithm U}
    (sound : context.residue.Sound algorithm) (piece : List UInt8) :
    (context.firstStep piece).value.Stands context.status := by
  rw [Context.firstStep_eq sound]
  split
  · exact ⟨rfl, nofun⟩
  · exact stands_restStep sound (by omega)

end NextStep

namespace Job

variable {job : Job algorithm U}

theorem conclusion_of_final (final : job.isFinal = true) :
    job.conclusion = job.finish.context.complete := by
  rw [conclusion, if_pos final]

theorem conclusion_of_not_final (notFinal : job.isFinal = false) :
    job.conclusion = (job.finish.context.nextStep job.pending).value.conclusion := by
  rw [conclusion, if_neg (Bool.eq_false_iff.mp notFinal)]
  split <;> next stepped => rw [stepped]; rfl

theorem conclusion_advanced (sound : job.Sound) {length : Nat}
    (whole : algorithm.blockLength ∣ length)
    (within : 0 < job.work.length → length ≤ job.work.length) :
    (job.advanced length).conclusion = job.conclusion := by
  have finish_eq := finish_advanced sound whole within
  have isFinal_eq := congrArg Job.isFinal finish_eq
  have pending_eq := congrArg Job.pending finish_eq
  change (job.advanced length).isFinal = job.isFinal at isFinal_eq
  change (job.advanced length).pending = job.pending at pending_eq
  cases final : job.isFinal with
  | true =>
      rw [conclusion_of_final final, conclusion_of_final (isFinal_eq.trans final), finish_eq]
  | false =>
      rw [conclusion_of_not_final final, conclusion_of_not_final (isFinal_eq.trans final),
        pending_eq, finish_eq]

theorem finish_of_finished (finished : job.work = []) : job.finish = job :=
  ((Continues.refl job).eq_finish finished).symm

/-- A message that is closed is complete in the end, and any other context stands
where it stood. -/
theorem status_conclusion {status : Status} (sound : job.Sound)
    (stands : (NextStep.work job).Stands status) :
    job.conclusion.status = if status = .lastSeen then .complete else status := by
  have later (job : Job algorithm U) (sound : job.Sound)
      (stands : (NextStep.work job).Stands status) :
      (job.finish.context.nextStep job.pending).value.Stands status ∧
        (job.finish.context.nextStep job.pending).value.Sound := by
    have residue : job.finish.context.residue.Sound algorithm := sound.residue
    have separate : job.finish.context.residue.length = 0 ∨ job.pending = [] := sound.separate
    refine ⟨?_, (Context.orderly_nextStep residue separate).sound⟩
    rw [Context.nextStep_eq residue separate, ← stands.1]
    exact NextStep.stands_restStep residue (Context.room_of_separate residue separate)
  induction job using conclusion.induct with
  | case1 job final =>
      rw [conclusion_of_final final, if_pos (stands.2 final)]
      rfl
  | case2 job notFinal context stepped =>
      obtain ⟨standsNext, -⟩ := later job sound stands
      rw [conclusion_of_not_final (Bool.eq_false_iff.mpr notFinal), stepped]
      rw [stepped] at standsNext
      exact standsNext.1.trans (if_neg standsNext.2).symm
  | case3 job notFinal next stepped ih =>
      obtain ⟨standsNext, soundNext⟩ := later job sound stands
      rw [conclusion_of_not_final (Bool.eq_false_iff.mpr notFinal), stepped]
      rw [stepped] at standsNext soundNext
      exact ih soundNext standsNext

end Job

theorem NextStep.status_conclusion {next : NextStep algorithm U} {status : Status}
    (sound : next.Sound) (stands : next.Stands status) :
    next.conclusion.status = if status = .lastSeen then .complete else status := by
  cases next with
  | work job => exact Job.status_conclusion sound stands
  | handBack context => exact stands.1.trans (if_neg stands.2).symm

/-- An accepted piece leaves its context complete if it is the last one of its
message, and open otherwise. -/
theorem Context.status_concluded {context : Context algorithm U}
    (residue : context.residue.Sound algorithm) {flag : Flag}
    (accepted : context.refusalOf? flag = none) (piece : List UInt8) :
    (context.concluded piece flag).status = if flag.finishes then .complete else .processing := by
  have sound := sound_accept residue flag piece.length
  have settled := NextStep.status_conclusion (orderly_firstStep sound piece).sound
    (NextStep.stands_firstStep sound piece)
  have status_eq : (context.accept flag piece.length).status =
      if flag.finishes then .lastSeen else .processing := by
    cases flag with
    | first | last | entire => rfl
    | update => exact status_of_continues accepted rfl
  rw [concluded, settled, status_eq]
  cases flag.finishes <;> rfl

section Core

/-! The number of a context and its refusal have no part in all this. -/

def Job.core (job : Job algorithm U) : Job algorithm Unit :=
  { job with context := job.context.core }

def NextStep.core : NextStep algorithm U → NextStep algorithm Unit
  | work job => .work job.core
  | handBack context => .handBack context.core

theorem Context.core_finishOrHandBack (context : Context algorithm U) :
    context.core.finishOrHandBack.value = context.finishOrHandBack.value.core := by
  unfold finishOrHandBack
  by_cases closed : context.status = .lastSeen
  · rw [if_pos closed, if_pos (show context.core.status = .lastSeen from closed)]
    rfl
  · rw [if_neg closed, if_neg (show context.core.status ≠ .lastSeen from closed)]
    rfl

theorem Context.core_nextStep (context : Context algorithm U) (pending : List UInt8) :
    (context.core.nextStep pending).value = (context.nextStep pending).value.core := by
  unfold nextStep
  by_cases waiting : context.residue.length = 0 ∧ pending ≠ []
  · rw [if_pos waiting, if_pos (show context.core.residue.length = 0 ∧ _ from waiting)]
    simp only [Traced.value_bind]
    split
    · rfl
    · exact core_finishOrHandBack (context.buffer _).value
  · rw [if_neg waiting, if_neg (show ¬ (context.core.residue.length = 0 ∧ _) from waiting)]
    exact context.core_finishOrHandBack

theorem Context.core_firstStep (context : Context algorithm U) (piece : List UInt8) :
    (context.core.firstStep piece).value = (context.firstStep piece).value.core := by
  unfold firstStep
  by_cases waits : 0 < context.residue.length ∨ piece.length < algorithm.blockLength
  · rw [if_pos waits, if_pos (show 0 < context.core.residue.length ∨ _ from waits)]
    simp only [Traced.value_bind]
    have buffered : (context.core.buffer (piece.take (algorithm.blockLength -
        context.core.residue.length))).value = (context.buffer (piece.take
          (algorithm.blockLength - context.residue.length))).value.core := rfl
    rw [buffered]
    generalize (context.buffer _).value = filled
    by_cases full : filled.residue.length = algorithm.blockLength
    · rw [if_pos full, if_pos (show filled.core.residue.length = _ from full)]
      rfl
    · rw [if_neg full, if_neg (show filled.core.residue.length ≠ _ from full)]
      exact filled.core_nextStep _
  · rw [if_neg waits, if_neg (show ¬ (0 < context.core.residue.length ∨ _) from waits)]
    exact context.core_nextStep piece

theorem Job.core_conclusion (job : Job algorithm U) :
    job.core.conclusion = job.conclusion.core := by
  have followed (job : Job algorithm U) (notFinal : job.isFinal = false) :
      job.core.conclusion = (job.finish.context.nextStep job.pending).value.core.conclusion := by
    rw [← Context.core_nextStep]
    exact conclusion_of_not_final notFinal
  induction job using conclusion.induct with
  | case1 job final =>
      rw [conclusion_of_final final, conclusion_of_final (show job.core.isFinal = true from final)]
      rfl
  | case2 job notFinal context stepped =>
      have isOpen : job.isFinal = false := Bool.eq_false_iff.mpr notFinal
      rw [followed job isOpen, conclusion_of_not_final isOpen, stepped]
      rfl
  | case3 job notFinal next stepped ih =>
      have isOpen : job.isFinal = false := Bool.eq_false_iff.mpr notFinal
      rw [followed job isOpen, conclusion_of_not_final isOpen, stepped]
      exact ih

theorem NextStep.core_conclusion (next : NextStep algorithm U) :
    next.core.conclusion = next.conclusion.core := by
  cases next with
  | work job => exact job.core_conclusion
  | handBack context => rfl

theorem Context.core_accept (context : Context algorithm U) (flag : Flag) (length : Nat) :
    context.core.accept flag length = (context.accept flag length).core := by
  cases flag <;> rfl

/-- What is left of a context depends on the context apart from its number. -/
theorem Context.core_concluded (context : Context algorithm U) (piece : List UInt8)
    (flag : Flag) : context.core.concluded piece flag = (context.concluded piece flag).core := by
  rw [concluded, core_accept, core_firstStep, NextStep.core_conclusion]
  rfl

end Core

namespace Conditions

/-- The conditions on a slot whose context is, or will be when it comes back, as it
is given apart from its number and its refusal. -/
def becoming (core : Context algorithm Unit) : Conditions algorithm where
  held context := context.core = core
  streamed job := job.conclusion.core = core
  answered context := context.core = core
  placed := False

theorem next_becoming {core : Context algorithm Unit} {next : NextStep algorithm Owner}
    (concludes : next.conclusion.core = core) (manager : StreamManager algorithm Owner) :
    (becoming core).next (.streams manager) next := by
  cases next <;> exact concludes

theorem lasting_becoming (core : Context algorithm Unit) :
    (becoming core : Conditions algorithm).Lasting where
  notClosed := False.elim
  alike held _ _ same := (same.resolve_left id).trans held
  held_of_answered answered := answered
  advanced sound whole within streamed := by
    change (Job.advanced _ _).conclusion.core = core
    rw [Job.conclusion_advanced sound whole within]
    exact streamed
  followed {job manager} _ streamed notFinal finished := by
    refine next_becoming ?_ manager
    change job.conclusion.core = core at streamed
    rwa [Job.conclusion_of_not_final notFinal, Job.finish_of_finished finished] at streamed
  completed {job} streamed final finished := by
    change job.conclusion.core = core at streamed
    rwa [Job.conclusion_of_final final, Job.finish_of_finished finished] at streamed

end Conditions

end LaneHash
