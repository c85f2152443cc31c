import LaneHash.Proofs.Moments

/-!
# The work of a piece

What the jobs of a piece have to absorb is settled when the piece is accepted:
the waiting bytes topped up to a block, all whole blocks that follow, and the end
of the message with its padding.  It is said here without buffers or jobs.  Every
step of a context does the next part of it and leaves the rest ahead, and no part
is empty.  So a manager that takes a piece up puts only jobs with work into its
lanes, whatever it follows up on the way.
-/

namespace LaneHash

variable {algorithm : Algorithm} {U : Type}

namespace Padding

variable (algorithm : Algorithm)

/-- The end of a message of `total` bytes: the bytes that fill no block, the mark,
zeros, and the length in bits. -/
def ending (leftover : List UInt8) (total : Nat) : List UInt8 :=
  leftover ++ 0x80 ::
    (List.replicate (finalBlocks algorithm leftover.length * algorithm.blockLength -
        algorithm.lengthFieldLength - (leftover.length + 1)) 0 ++
      algorithm.byteOrder.encode algorithm.lengthFieldLength (8 * total))

theorem ending_ne_nil (leftover : List UInt8) (total : Nat) :
    ending algorithm leftover total ≠ [] :=
  List.append_ne_nil_of_right_ne_nil _ (List.cons_ne_nil _ _)

theorem length_ending {leftover : List UInt8} (short : leftover.length < algorithm.blockLength)
    (total : Nat) :
    (ending algorithm leftover total).length =
      finalBlocks algorithm leftover.length * algorithm.blockLength := by
  have fieldBound := lengthFieldLength_lt_blockLength algorithm
  have room : leftover.length + 1 + algorithm.lengthFieldLength ≤
      finalBlocks algorithm leftover.length * algorithm.blockLength := by
    unfold finalBlocks
    split <;> omega
  rw [ending, List.length_append, List.length_cons, List.length_append, List.length_replicate,
    ByteOrder.length_encode]
  omega

end Padding

section Plans

variable (algorithm : Algorithm)

def wholeLength (bytes : List UInt8) : Nat :=
  bytes.length - bytes.length % algorithm.blockLength

/-- The work of the jobs for bytes behind some that wait, when the waiting bytes
are not to be topped up. -/
def restWorks (waiting bytes : List UInt8) (finishes : Bool) (total : Nat) :
    List (List UInt8) :=
  (if algorithm.blockLength ≤ bytes.length then [bytes.take (wholeLength algorithm bytes)]
    else []) ++
  if finishes then
    [Padding.ending algorithm (waiting ++ bytes.drop (wholeLength algorithm bytes)) total]
  else []

/-- Whether waiting bytes of a number are topped up to a block by a piece of a
number of bytes. -/
def TopsUp (waiting length : Nat) : Prop :=
  0 < waiting ∧ algorithm.blockLength ≤ waiting + length

instance (waiting length : Nat) : Decidable (TopsUp algorithm waiting length) :=
  inferInstanceAs (Decidable (_ ∧ _))

/-- The work of the jobs of a piece, in their order, given the bytes that wait, and
whether the piece ends its message of `total` bytes. -/
def pieceWorks (waiting piece : List UInt8) (finishes : Bool) (total : Nat) :
    List (List UInt8) :=
  if TopsUp algorithm waiting.length piece.length then
    (waiting ++ piece.take (algorithm.blockLength - waiting.length)) ::
      restWorks algorithm [] (piece.drop (algorithm.blockLength - waiting.length)) finishes total
  else
    restWorks algorithm waiting piece finishes total

/-- The lengths of the jobs of a piece: one block if the waiting bytes are topped
up, all whole blocks that follow if there is one, and the final blocks if the piece
ends its message. -/
def pieceLengths (waiting length : Nat) (finishes : Bool) : List Nat :=
  let rest := if TopsUp algorithm waiting length then length - (algorithm.blockLength - waiting)
    else length
  (if TopsUp algorithm waiting length then [algorithm.blockLength] else []) ++
  (if algorithm.blockLength ≤ rest then [rest / algorithm.blockLength * algorithm.blockLength]
    else []) ++
  if finishes then
    [Padding.finalBlocks algorithm ((waiting + length) % algorithm.blockLength) *
      algorithm.blockLength]
  else []

variable {algorithm} {waiting bytes piece : List UInt8} {finishes : Bool} {total : Nat}

theorem wholeLength_eq (bytes : List UInt8) :
    wholeLength algorithm bytes = bytes.length / algorithm.blockLength * algorithm.blockLength :=
  Nat.sub_eq_of_eq_add (Nat.div_add_mod' _ _).symm

theorem wholeLength_le (bytes : List UInt8) : wholeLength algorithm bytes ≤ bytes.length :=
  Nat.sub_le _ _

theorem length_drop_wholeLength (bytes : List UInt8) :
    (bytes.drop (wholeLength algorithm bytes)).length = bytes.length % algorithm.blockLength :=
  Context.length_tail bytes

theorem wholeLength_of_short (short : bytes.length < algorithm.blockLength) :
    wholeLength algorithm bytes = 0 := by
  rw [wholeLength, Nat.mod_eq_of_lt short, Nat.sub_self]

theorem ne_nil_of_mem_restWorks {work : List UInt8}
    (member : work ∈ restWorks algorithm waiting bytes finishes total) : work ≠ [] := by
  rcases List.mem_append.mp member with whole | final
  · split at whole
    · next block =>
        obtain rfl := List.mem_singleton.mp whole
        have positive := algorithm.blockLength_pos
        have tail := Nat.mod_lt bytes.length positive
        rw [ne_eq, List.take_eq_nil_iff, wholeLength, not_or, ← List.length_eq_zero_iff]
        omega
    · cases whole
  · split at final
    · obtain rfl := List.mem_singleton.mp final
      exact Padding.ending_ne_nil algorithm _ _
    · cases final

theorem ne_nil_of_mem_pieceWorks {work : List UInt8}
    (member : work ∈ pieceWorks algorithm waiting piece finishes total) : work ≠ [] := by
  unfold pieceWorks at member
  split at member
  · next tops =>
      rcases List.mem_cons.mp member with rfl | later
      · exact List.append_ne_nil_of_left_ne_nil (List.length_pos_iff.mp tops.1) _
      · exact ne_nil_of_mem_restWorks later
  · exact ne_nil_of_mem_restWorks member

theorem pieceWorks_eq_nil_iff :
    pieceWorks algorithm waiting piece finishes total = [] ↔
      waiting.length + piece.length < algorithm.blockLength ∧ finishes = false := by
  unfold pieceWorks
  split
  · next tops =>
      have full := tops.2
      exact iff_of_false (List.cons_ne_nil _ _) fun fits => by omega
  · next bare =>
      have room : 0 = waiting.length ∨
          waiting.length + piece.length < algorithm.blockLength := by
        unfold TopsUp at bare
        omega
      rw [restWorks, List.append_eq_nil_iff]
      cases finishes
      · simp
        omega
      · simp

theorem map_length_restWorks
    (room : waiting.length + bytes.length % algorithm.blockLength < algorithm.blockLength) :
    (restWorks algorithm waiting bytes finishes total).map List.length =
      (if algorithm.blockLength ≤ bytes.length then
        [bytes.length / algorithm.blockLength * algorithm.blockLength] else []) ++
      if finishes then
        [Padding.finalBlocks algorithm (waiting.length + bytes.length % algorithm.blockLength) *
          algorithm.blockLength]
      else [] := by
  have leftover : (waiting ++ bytes.drop (wholeLength algorithm bytes)).length =
      waiting.length + bytes.length % algorithm.blockLength := by
    rw [List.length_append, length_drop_wholeLength]
  have final := Padding.length_ending algorithm (leftover ▸ room) total
  rw [leftover] at final
  rw [restWorks, List.map_append]
  congr 1
  · split
    · rw [List.map_singleton, List.length_take, Nat.min_eq_left (wholeLength_le bytes),
        wholeLength_eq]
    · rfl
  · split
    · rw [List.map_singleton, final]
    · rfl

theorem map_length_pieceWorks (short : waiting.length < algorithm.blockLength) :
    (pieceWorks algorithm waiting piece finishes total).map List.length =
      pieceLengths algorithm waiting.length piece.length finishes := by
  have positive := algorithm.blockLength_pos
  unfold pieceWorks pieceLengths
  by_cases tops : TopsUp algorithm waiting.length piece.length
  · have full := tops.2
    have all : waiting.length + piece.length =
        piece.length - (algorithm.blockLength - waiting.length) + algorithm.blockLength := by
      omega
    have rest := Nat.mod_lt (piece.length - (algorithm.blockLength - waiting.length)) positive
    have filled : (waiting ++ piece.take (algorithm.blockLength - waiting.length)).length =
        algorithm.blockLength := by
      rw [List.length_append, List.length_take]
      omega
    simp only [if_pos tops]
    rw [List.map_cons, filled, map_length_restWorks (by simpa using rest), List.length_drop,
      List.length_nil, Nat.zero_add, all, Nat.add_mod_right]
    rfl
  · have bare : waiting.length = 0 ∨
        waiting.length + piece.length < algorithm.blockLength := by
      unfold TopsUp at tops
      omega
    have leftover : waiting.length + piece.length % algorithm.blockLength =
        (waiting.length + piece.length) % algorithm.blockLength := by
      rcases bare with nothing | fits
      · rw [nothing, Nat.zero_add, Nat.zero_add]
      · rw [Nat.mod_eq_of_lt fits, Nat.mod_eq_of_lt (by omega)]
    simp only [if_neg tops]
    rw [map_length_restWorks (leftover ▸ Nat.mod_lt _ positive), leftover]
    rfl

end Plans

namespace Context

def worksFor (context : Context algorithm U) (bytes : List UInt8) : List (List UInt8) :=
  restWorks algorithm context.residue.contents bytes (context.status = .lastSeen)
    context.totalLength

end Context

/-- The work of the jobs that come after a job of the same piece. -/
def Job.worksAhead (job : Job algorithm U) : List (List UInt8) :=
  if job.isFinal then [] else job.context.worksFor job.pending

def NextStep.works : NextStep algorithm U → List (List UInt8)
  | work job => job.work :: job.worksAhead
  | handBack _ => []

theorem Job.worksAhead_advanced (job : Job algorithm U) (length : Nat) :
    (job.advanced length).worksAhead = job.worksAhead := by
  unfold Job.advanced
  split <;> rfl

namespace Context

theorem work_finalJob {context : Context algorithm U}
    (sound : context.residue.Sound algorithm) :
    context.finalJob.work =
      Padding.ending algorithm context.residue.contents context.totalLength := by
  rw [Padding.ending, sound.length_contents]
  exact Padding.take_pad_of_paddable algorithm (paddable sound) context.totalLength

theorem works_restStep {context : Context algorithm U}
    (sound : context.residue.Sound algorithm) {bytes : List UInt8}
    (room : context.residue.length = 0 ∨
      context.residue.length + bytes.length < algorithm.blockLength) :
    (context.restStep bytes).value.works = context.worksFor bytes := by
  have positive := algorithm.blockLength_pos
  rcases restStep_cases sound room with
    ⟨-, block, step_eq⟩ | ⟨fits, closed, step_eq⟩ | ⟨fits, isOpen, step_eq⟩ <;>
    rw [step_eq, worksFor, restWorks]
  · have tail := contents_buffered sound (bytes.drop (wholeLength algorithm bytes))
    have ahead : (context.wholeJob bytes).worksAhead =
        if context.status = .lastSeen then
          [Padding.ending algorithm
            (context.residue.contents ++ bytes.drop (wholeLength algorithm bytes))
            context.totalLength]
        else [] := by
      change worksFor (context.buffered (bytes.drop (wholeLength algorithm bytes))) [] = _
      rw [worksFor, restWorks, tail, if_neg (by simp; omega), List.nil_append, List.drop_nil,
        List.append_nil]
      simp only [decide_eq_true_eq]
      rfl
    rw [if_pos block]
    simp only [NextStep.works, ahead, work_wholeJob, decide_eq_true_eq]
    rfl
  · have ending := work_finalJob (sound_buffered sound fits)
    rw [contents_buffered sound] at ending
    rw [if_neg (by omega), wholeLength_of_short (by omega), if_pos (by simpa using closed)]
    exact congrArg (· :: []) ending
  · rw [if_neg (by omega), if_neg (by simpa using isOpen)]
    rfl

/-- Following a job up does the next part of the work ahead of it. -/
theorem works_nextStep {job : Job algorithm U} (sound : job.Sound)
    (notFinal : job.isFinal = false) :
    (job.context.nextStep job.pending).value.works = job.worksAhead := by
  rw [nextStep_eq sound.residue sound.separate,
    works_restStep sound.residue (room_of_separate sound.residue sound.separate), Job.worksAhead,
    notFinal]
  rfl

theorem works_firstStep {context : Context algorithm U}
    (sound : context.residue.Sound algorithm) (piece : List UInt8) :
    (context.firstStep piece).value.works =
      pieceWorks algorithm context.residue.contents piece (context.status = .lastSeen)
        context.totalLength := by
  have waiting := sound.length_contents
  rw [firstStep_eq sound, pieceWorks, waiting]
  change NextStep.works (if TopsUp algorithm _ _ then _ else _ : Traced _ _).value = _
  split
  · rfl
  · next bare =>
      unfold TopsUp at bare
      exact works_restStep sound (by omega)

theorem lastSeen_accept_iff {context : Context algorithm U} {flag : Flag}
    (accepted : context.refusalOf? flag = none) (length : Nat) :
    (context.accept flag length).status = .lastSeen ↔ flag.finishes = true := by
  cases statusEq : context.status <;> cases flag <;>
    simp_all [refusalOf?, accept, start, Flag.starts, Flag.finishes]

/-- The bytes that wait with a context for a piece; the first piece of a message
finds none. -/
def waitingFor (context : Context algorithm U) (flag : Flag) : List UInt8 :=
  if flag.starts then [] else context.residue.contents

/-- The work of the jobs that an accepted piece leads to. -/
def plan (context : Context algorithm U) (flag : Flag) (piece : List UInt8) :
    List (List UInt8) :=
  pieceWorks algorithm (context.waitingFor flag) piece flag.finishes
    (context.accept flag piece.length).totalLength

theorem length_waitingFor {context : Context algorithm U}
    (sound : context.residue.Sound algorithm) (flag : Flag) :
    (context.waitingFor flag).length = if flag.starts then 0 else context.residue.length := by
  rw [waitingFor, apply_ite List.length, sound.length_contents]
  rfl

/-- The first step of an accepted piece begins with the work that is planned for the
piece. -/
theorem works_firstStep_accept {context : Context algorithm U}
    (sound : context.residue.Sound algorithm) {flag : Flag}
    (accepted : context.refusalOf? flag = none) (piece : List UInt8) :
    ((context.accept flag piece.length).firstStep piece).value.works =
      context.plan flag piece := by
  have finishes : decide ((context.accept flag piece.length).status = .lastSeen) =
      flag.finishes := by
    rw [Bool.eq_iff_iff, decide_eq_true_iff, lastSeen_accept_iff accepted]
  have waiting : (context.accept flag piece.length).residue.contents =
      context.waitingFor flag := by
    cases flag <;> rfl
  rw [works_firstStep (sound_accept sound flag piece.length), finishes, waiting]
  rfl

theorem map_length_plan {context : Context algorithm U}
    (sound : context.residue.Sound algorithm) (flag : Flag) (piece : List UInt8) :
    (context.plan flag piece).map List.length =
      pieceLengths algorithm (if flag.starts then 0 else context.residue.length) piece.length
        flag.finishes := by
  have waiting := length_waitingFor sound flag
  have short : (context.waitingFor flag).length < algorithm.blockLength := by
    have short := sound.short
    have positive := algorithm.blockLength_pos
    rw [waiting]
    split <;> omega
  rw [plan, map_length_pieceWorks short, waiting]

theorem plan_eq_nil_iff {context : Context algorithm U}
    (sound : context.residue.Sound algorithm) {flag : Flag} {piece : List UInt8} :
    context.plan flag piece = [] ↔
      (if flag.starts then 0 else context.residue.length) + piece.length <
          algorithm.blockLength ∧
        flag.finishes = false := by
  rw [plan, pieceWorks_eq_nil_iff, length_waitingFor sound]

/-- A piece that makes no job is put behind what waits, and the context is handed
back. -/
theorem firstStep_of_plan_eq_nil {context : Context algorithm U}
    (sound : context.residue.Sound algorithm) {flag : Flag}
    (accepted : context.refusalOf? flag = none) {piece : List UInt8}
    (nothing : context.plan flag piece = []) :
    (context.accept flag piece.length).firstStep piece =
      ⟨.handBack ((context.accept flag piece.length).buffered piece), []⟩ := by
  have acceptedSound := sound_accept sound flag piece.length
  have works := works_firstStep_accept sound accepted piece
  rw [nothing, firstStep_eq acceptedSound] at works
  rw [firstStep_eq acceptedSound]
  split at works
  · cases works
  · next bare =>
      have room : (context.accept flag piece.length).residue.length = 0 ∨
          (context.accept flag piece.length).residue.length + piece.length <
            algorithm.blockLength := by
        omega
      rcases restStep_cases acceptedSound room with
        ⟨-, -, step_eq⟩ | ⟨-, -, step_eq⟩ | ⟨-, -, step_eq⟩
      · rw [step_eq] at works
        cases works
      · rw [step_eq] at works
        cases works
      · rw [if_neg bare, step_eq]

end Context

theorem Job.ne_nil_of_nextStep {job next : Job algorithm U} (sound : job.Sound)
    (notFinal : job.isFinal = false)
    (stepped : (job.context.nextStep job.pending).value = .work next) : next.work ≠ [] := by
  have works := Context.works_nextStep sound notFinal
  have among : next.work ∈ (NextStep.work next).works := List.mem_cons_self
  rw [← stepped, works, worksAhead, notFinal] at among
  exact ne_nil_of_mem_restWorks among

theorem Context.ne_nil_of_firstStep {context : Context algorithm U}
    (sound : context.residue.Sound algorithm) {piece : List UInt8} {job : Job algorithm U}
    (stepped : (context.firstStep piece).value = .work job) : job.work ≠ [] := by
  have among : job.work ∈ (NextStep.work job).works := List.mem_cons_self
  rw [← stepped, works_firstStep sound] at among
  exact ne_nil_of_mem_pieceWorks among

namespace StreamManager

/-- As long as a scheduler is in a good state, something holds of the effects of putting
jobs with work into its lanes, and the state stays good while jobs come back. -/
structure Upholds (holds : Effect U → Prop) (good : Scheduler algorithm U → Prop) : Prop where
  ofLocal : ∀ effects : List (Effect U), (∀ effect ∈ effects, effect.isLocal = true) →
    ∀ effect ∈ effects, holds effect
  ofPlace : ∀ {scheduler : Scheduler algorithm U} {job : Job algorithm U},
    scheduler.Sound → scheduler.free ≠ [] → good scheduler → job.Sound → job.work ≠ [] →
    (∀ effect ∈ (scheduler.place job).trace, holds effect) ∧
      ∀ back, (scheduler.place job).value.2 = some back → good (scheduler.place job).value.1

namespace Upholds

variable {manager : StreamManager algorithm U} {holds : Effect U → Prop}
  {good : Scheduler algorithm U → Prop}

/-- What holds of the effects of one job holds of all that come from following jobs
up. -/
theorem settle (upholds : Upholds holds good) (returned : Option (Job algorithm U))
    (sound : Moment.Sound ⟨manager.scheduler, returned, []⟩)
    (vacancy : manager.scheduler.free ≠ [])
    (isGood : ∀ job, returned = some job → good manager.scheduler)
    (finished : ∀ job, returned = some job → job.work = []) :
    ∀ effect ∈ (manager.settle returned).trace, holds effect := by
  induction manager, returned using StreamManager.settle.induct with
  | case1 manager =>
      rw [StreamManager.settle]
      exact List.forall_mem_nil _
  | case2 manager job final =>
      rw [settle_some, if_pos final]
      exact upholds.ofLocal _ (List.forall_mem_singleton.mpr rfl)
  | case3 manager job notFinal ih =>
      have open_ := Bool.eq_false_iff.mpr notFinal
      have follow : Moment.Step ⟨manager.scheduler, some job, []⟩ _ _ :=
        .follow open_ (finished job rfl)
      have followed := follow.sound sound
      have jobSound := sound.hand job rfl
      have orderly := Context.orderly_nextStep jobSound.residue jobSound.separate
      rw [settle_some, if_neg notFinal]
      refine List.forall_mem_append.mpr ⟨upholds.ofLocal _ orderly.isLocal, ?_⟩
      rcases stepped : (job.context.nextStep job.pending).value with next | context
      · rw [stepped] at followed
        have nextSound : next.Sound := followed.hand next rfl
        obtain ⟨placed, kept⟩ := upholds.ofPlace sound.scheduler vacancy (isGood job rfl)
          nextSound (Job.ne_nil_of_nextStep jobSound open_ stepped)
        refine List.forall_mem_append.mpr ⟨?_, ?_⟩
        · rw [trace_place]
          exact placed
        · exact ih next stepped (manager.place next).value rfl
            ((Scheduler.path_place sound.scheduler vacancy nextSound []).sound followed)
            (Scheduler.free_place_ne_nil sound.scheduler vacancy nextSound) kept
            (fun job handed => Scheduler.work_place sound.scheduler vacancy handed)
      · exact List.forall_mem_nil _

theorem takeUp (upholds : Upholds holds good) (sound : manager.Sound)
    (isGood : good manager.scheduler) {next : NextStep algorithm U} (nextSound : next.Sound)
    (work : ∀ job, next = .work job → job.work ≠ []) :
    ∀ effect ∈ (manager.takeUp next).trace, holds effect := by
  cases next with
  | handBack context => exact List.forall_mem_nil _
  | work job =>
      have start : Moment.Sound ⟨manager.scheduler, some job, []⟩ :=
        Moment.sound_proceed sound.scheduler (List.forall_mem_nil _) (.work job) nextSound
      obtain ⟨placed, kept⟩ :=
        upholds.ofPlace sound.scheduler sound.vacancy isGood nextSound (work job rfl)
      refine List.forall_mem_append.mpr ⟨?_, ?_⟩
      · rw [trace_place]
        exact placed
      · exact upholds.settle _
          ((Scheduler.path_place sound.scheduler sound.vacancy nextSound []).sound start)
          (Scheduler.free_place_ne_nil sound.scheduler sound.vacancy nextSound) kept
          (fun job handed => Scheduler.work_place sound.scheduler sound.vacancy handed)

end Upholds

end StreamManager

end LaneHash
