import LaneHash.Proofs.Accounts
import LaneHash.Proofs.Outstanding

/-!
# What a stream manager takes in

A piece that a stream manager accepts brings a number of blocks: those that it
fills together with the bytes that wait for it, and at the end of a message the
final blocks.  Each of them is outstanding until an advance absorbs it, however
the piece is split into jobs and wherever these meet other jobs.  So a manager
that holds nothing has absorbed as many blocks as it has taken in.
-/

namespace LaneHash

variable {algorithm : Algorithm} {U : Type}

namespace Context

/-- The number of blocks that a piece brings when it is accepted. -/
def intake (context : Context algorithm U) (flag : Flag) (length : Nat) : Nat :=
  let waiting := if flag.starts then 0 else context.residue.length
  (waiting + length) / algorithm.blockLength +
    if flag.finishes then
      Padding.finalBlocks algorithm ((waiting + length) % algorithm.blockLength)
    else
      0

theorem outstanding_firstStep {context : Context algorithm U}
    (sound : context.residue.Sound algorithm) (piece : List UInt8) :
    (context.firstStep piece).value.outstanding =
      (context.residue.length + piece.length) / algorithm.blockLength +
        context.endBlocks piece := by
  have positive := algorithm.blockLength_pos
  rw [firstStep_eq sound]
  split
  · next full =>
      obtain ⟨waiting, full⟩ := full
      have short := sound.short
      -- The rest of the piece behind the block that it fills.
      have rest : (piece.drop (algorithm.blockLength - context.residue.length)).length +
          algorithm.blockLength = context.residue.length + piece.length := by
        rw [List.length_drop]
        omega
      have work : (context.topUpJob piece).work.length = algorithm.blockLength := by
        change (context.residue.contents ++ piece.take _).length = _
        rw [List.length_append, sound.length_contents, List.length_take]
        omega
      have ends : (context.toppedUp piece).endBlocks
          (piece.drop (algorithm.blockLength - context.residue.length)) =
            context.endBlocks piece := by
        rw [endBlocks, endBlocks, ← rest, Nat.add_mod_right]
        change (if context.status = .lastSeen then
          Padding.finalBlocks algorithm ((0 + _) % algorithm.blockLength) else 0) = _
        rw [Nat.zero_add]
      change (context.topUpJob piece).work.length / _ +
        (piece.drop (algorithm.blockLength - context.residue.length)).length / _ +
          (context.toppedUp piece).endBlocks
            (piece.drop (algorithm.blockLength - context.residue.length)) = _
      rw [work, ends, ← rest, Nat.add_div_right _ positive, Nat.div_self positive, Nat.add_comm 1]
  · next notFull =>
      have room : context.residue.length = 0 ∨
          context.residue.length + piece.length < algorithm.blockLength := by
        omega
      rw [outstanding_restStep sound room]
      rcases room with nothing | short
      · rw [nothing, Nat.zero_add]
      · rw [Nat.div_eq_of_lt short, Nat.div_eq_of_lt (by omega)]

theorem endBlocks_accept {context : Context algorithm U} {flag : Flag}
    (accepted : context.refusalOf? flag = none) (piece : List UInt8) :
    (context.accept flag piece.length).endBlocks piece =
      if flag.finishes then
        Padding.finalBlocks algorithm
          (((context.accept flag piece.length).residue.length + piece.length) %
            algorithm.blockLength)
      else
        0 := by
  have closed : (context.accept flag piece.length).status = .lastSeen ↔
      flag.finishes = true := by
    cases statusEq : context.status <;> cases flag <;>
      simp_all [refusalOf?, accept, start, Flag.starts, Flag.finishes]
  rw [endBlocks]
  simp only [closed]

/-- What is outstanding after the first step of an accepted piece is what the
piece brings. -/
theorem outstanding_firstStep_accept {context : Context algorithm U}
    (sound : context.residue.Sound algorithm) {flag : Flag}
    (accepted : context.refusalOf? flag = none) (piece : List UInt8) :
    ((context.accept flag piece.length).firstStep piece).value.outstanding =
      context.intake flag piece.length := by
  have waiting : (context.accept flag piece.length).residue.length =
      if flag.starts then 0 else context.residue.length := by
    cases flag <;> rfl
  rw [outstanding_firstStep (sound_accept sound flag piece.length), endBlocks_accept accepted,
    waiting]
  rfl

end Context

namespace Moment

variable {first second last : Moment algorithm U} {effects : List (Effect U)}

def outstanding (moment : Moment algorithm U) : Nat :=
  sumOf Job.outstanding moment.jobs

theorem outstanding_proceed (scheduler : Scheduler algorithm U)
    (ready : List (Context algorithm U)) (next : NextStep algorithm U) :
    (proceed scheduler ready next).outstanding =
      next.outstanding + sumOf Job.outstanding scheduler.lanes.jobs := by
  cases next with
  | work job => rfl
  | handBack context => exact (Nat.zero_add _).symm

/-- In every step, what stops being outstanding has been absorbed. -/
theorem Step.blocks_add_outstanding (step : Step first effects second) (sound : first.Sound) :
    second.scheduler.activity.blocks + second.outstanding =
      first.scheduler.activity.blocks + first.outstanding := by
  cases step with
  | @occupy scheduler ready lane free job top =>
      have perm : (scheduler.occupied lane free job).lanes.jobs.Perm
          (job :: scheduler.lanes.jobs) :=
        Lanes.jobs_set_some_perm (sound.scheduler.vacant_top top) job
      exact congrArg (scheduler.activity.blocks + ·) (sumOf_perm perm)
  | @advance scheduler ready stride found =>
      have divides := sound.scheduler.blockLength_dvd_stride found
      have moved : sumOf Job.outstanding (scheduler.lanes.advanced stride).jobs +
          scheduler.lanes.unfinished.length * (stride / algorithm.blockLength) =
            sumOf Job.outstanding scheduler.lanes.jobs :=
        Lanes.sumOf_jobs_advanced fun job unfinished => Job.outstanding_advanced divides
          ((Lanes.stride?_eq_some found).2.2 job unfinished)
      change scheduler.activity.blocks + _ +
        sumOf Job.outstanding (scheduler.lanes.advanced stride).jobs =
          scheduler.activity.blocks + sumOf Job.outstanding scheduler.lanes.jobs
      omega
  | @vacate scheduler ready lane job found =>
      have perm : scheduler.lanes.jobs.Perm (job :: (scheduler.vacated lane).lanes.jobs) :=
        Lanes.jobs_set_none_perm (Lanes.firstFinished?_eq_some found).1
      exact congrArg (scheduler.activity.blocks + ·) (sumOf_perm perm).symm
  | @follow scheduler ready job notFinal finished =>
      have followed := Job.outstanding_nextStep (sound.hand job rfl) notFinal finished
      rw [scheduler_proceed, outstanding_proceed, followed]
      rfl
  | @complete scheduler ready job final finished =>
      -- The context leaves with its job, and no block may be lost with it.
      have nothing := Job.outstanding_of_final (sound.hand job rfl) final finished
      change _ = scheduler.activity.blocks +
        (job.outstanding + sumOf Job.outstanding scheduler.lanes.jobs)
      rw [nothing, Nat.zero_add]
      rfl

theorem Path.blocks_add_outstanding (path : Path first effects last) (sound : first.Sound) :
    last.scheduler.activity.blocks + last.outstanding =
      first.scheduler.activity.blocks + first.outstanding := by
  induction path with
  | refl => rfl
  | head step rest ih =>
      exact (ih (step.sound sound)).trans (step.blocks_add_outstanding sound)

end Moment

namespace StreamManager

/-- What a caller can ask of a stream manager.  A context that is submitted keeps
the invariant of its waiting bytes, as unused contexts do and those that come
back. -/
inductive Request (algorithm : Algorithm) (U : Type) where
  | submit (context : Context algorithm U) (sound : context.residue.Sound algorithm)
      (piece : List UInt8) (flag : Flag)
  | submitNumbered (context : Context algorithm U) (sound : context.residue.Sound algorithm)
      (piece : List UInt8) (flags : UInt32)
  | flush

inductive Answer (algorithm : Algorithm) (U : Type) where
  | received (reception : Reception algorithm U)
  | flushed (ready : Option (Context algorithm U))

def Answer.contexts : Answer algorithm U → List (Context algorithm U)
  | received (.refused _ context) => [context]
  | received (.accepted ready) => ready.toList
  | flushed ready => ready.toList

def serve (manager : StreamManager algorithm U) :
    Request algorithm U → Traced (Effect U) (StreamManager algorithm U × Answer algorithm U)
  | .submit context _ piece flag =>
      (fun submitted => (submitted.1, .received submitted.2)) <$>
        manager.submit context piece flag
  | .submitNumbered context _ piece flags =>
      (fun submitted => (submitted.1, .received submitted.2)) <$>
        manager.submitNumbered context piece flags
  | .flush => (fun flushed => (flushed.1, .flushed flushed.2)) <$> manager.flush

def serveAll (manager : StreamManager algorithm U) :
    List (Request algorithm U) →
      Traced (Effect U) (StreamManager algorithm U × List (Answer algorithm U))
  | [] => return (manager, [])
  | request :: requests => do
      let served ← manager.serve request
      let later ← serveAll served.1 requests
      return (later.1, served.2 :: later.2)

def Request.intake : Request algorithm U → Answer algorithm U → Nat
  | submit context _ piece flag, .received (.accepted _) => context.intake flag piece.length
  | submitNumbered context _ piece flags, .received (.accepted _) =>
      (Flag.ofNumber flags).toOption.elim 0 fun flag => context.intake flag piece.length
  | _, _ => 0

/-- The number of blocks that requests have brought, given the answers to them. -/
def intakeOf (requests : List (Request algorithm U)) (answers : List (Answer algorithm U)) : Nat :=
  sumOf (fun served => served.1.intake served.2) (requests.zip answers)

/-- A manager whose blocks are accounted for: those that it has taken in are
absorbed or outstanding. -/
structure Books (manager : StreamManager algorithm U) (past : List (Effect U))
    (taken : Nat) : Prop where
  sound : manager.Sound
  accounts : manager.scheduler.Accounts past
  balance : manager.scheduler.activity.blocks +
    sumOf Job.outstanding manager.scheduler.lanes.jobs = taken

variable {manager : StreamManager algorithm U} {past : List (Effect U)} {taken : Nat}

theorem books_ofProvider (provider : Provider algorithm) :
    (ofProvider provider : StreamManager algorithm U).Books [] 0 where
  sound := sound_ofProvider provider
  accounts := Scheduler.accounts_ofProvider provider
  balance := by
    change 0 + sumOf Job.outstanding (Scheduler.ofProvider provider).lanes.jobs = 0
    rw [Scheduler.jobs_ofProvider]
    rfl

namespace Books

/-- Work that starts from balanced books ends with them. -/
theorem of_leads {start : Moment algorithm U} {ready : List (Context algorithm U)}
    {work : Traced (Effect U) (StreamManager algorithm U × Option (Context algorithm U))}
    (sound : start.Sound) (accounts : start.scheduler.Accounts past)
    (balance : start.scheduler.activity.blocks + start.outstanding = taken)
    (leads : Leads start ready work) :
    work.value.1.Books (past ++ work.trace) taken where
  sound := ⟨(leads.path.sound sound).scheduler, leads.vacancy⟩
  accounts := leads.path.accounts sound accounts
  balance := (leads.path.blocks_add_outstanding sound).trans balance

theorem flush (books : manager.Books past taken) :
    manager.flush.value.1.Books (past ++ manager.flush.trace) taken :=
  of_leads (Moment.sound_of_scheduler books.sound.scheduler (List.forall_mem_nil _))
    books.accounts books.balance (empties_flush books.sound [] (List.forall_mem_nil _)).toLeads

theorem takeUp (books : manager.Books past taken) {next : NextStep algorithm U}
    (nextSound : next.Sound) :
    (manager.takeUp next).value.1.Books (past ++ (manager.takeUp next).trace)
      (taken + next.outstanding) := by
  have started := Moment.sound_proceed books.sound.scheduler (List.forall_mem_nil _) next nextSound
  have leads := leads_takeUp books.sound nextSound [] (List.forall_mem_nil _)
  have accounts := books.accounts
  have balance : (Moment.proceed manager.scheduler [] next).scheduler.activity.blocks +
      (Moment.proceed manager.scheduler [] next).outstanding = taken + next.outstanding := by
    have before := books.balance
    rw [Moment.scheduler_proceed, Moment.outstanding_proceed]
    omega
  rw [← Moment.scheduler_proceed manager.scheduler [] next] at accounts
  exact of_leads started accounts balance leads

theorem of_isLocal (books : manager.Books past taken) {effects : List (Effect U)}
    (isLocal : ∀ effect ∈ effects, effect.isLocal = true) :
    manager.Books (past ++ effects) taken where
  sound := books.sound
  accounts := books.accounts.of_isLocal isLocal
  balance := books.balance

theorem submit (books : manager.Books past taken) {context : Context algorithm U}
    (sound : context.residue.Sound algorithm) (piece : List UInt8) (flag : Flag) :
    (manager.submit context piece flag).value.1.Books
      (past ++ (manager.submit context piece flag).trace)
      (taken + match (manager.submit context piece flag).value.2 with
        | .accepted _ => context.intake flag piece.length
        | .refused _ _ => 0) := by
  rcases verdict : context.refusalOf? flag with - | cause
  · have accepted := Context.sound_accept sound flag piece.length
    have orderly := Context.orderly_firstStep accepted piece
    have brought := Context.outstanding_firstStep_accept sound verdict piece
    have entered := (books.of_isLocal orderly.isLocal).takeUp orderly.sound
    rw [brought, List.append_assoc] at entered
    rw [submit_of_accepted verdict]
    simpa using entered
  · rw [submit_of_refused verdict, List.append_nil]
    exact books

theorem submitNumbered (books : manager.Books past taken) {context : Context algorithm U}
    (sound : context.residue.Sound algorithm) (piece : List UInt8) (flags : UInt32) :
    (manager.submitNumbered context piece flags).value.1.Books
      (past ++ (manager.submitNumbered context piece flags).trace)
      (taken + match (manager.submitNumbered context piece flags).value.2 with
        | .accepted _ =>
            (Flag.ofNumber flags).toOption.elim 0 fun flag => context.intake flag piece.length
        | .refused _ _ => 0) := by
  unfold StreamManager.submitNumbered
  rcases numbered : Flag.ofNumber flags with cause | flag
  · simpa using books
  · exact books.submit sound piece flag

theorem serve (books : manager.Books past taken) (request : Request algorithm U) :
    (manager.serve request).value.1.Books (past ++ (manager.serve request).trace)
      (taken + request.intake (manager.serve request).value.2) := by
  cases request with
  | submit context sound piece flag =>
      have submitted := books.submit sound piece flag
      rw [StreamManager.serve, Traced.trace_map, Traced.value_map]
      generalize manager.submit context piece flag = work at submitted ⊢
      obtain ⟨⟨later, reception⟩, effects⟩ := work
      cases reception <;> exact submitted
  | submitNumbered context sound piece flags =>
      have submitted := books.submitNumbered sound piece flags
      rw [StreamManager.serve, Traced.trace_map, Traced.value_map]
      generalize manager.submitNumbered context piece flags = work at submitted ⊢
      obtain ⟨⟨later, reception⟩, effects⟩ := work
      cases reception <;> exact submitted
  | flush =>
      rw [StreamManager.serve, Traced.trace_map]
      exact books.flush

theorem serveAll (books : manager.Books past taken) (requests : List (Request algorithm U)) :
    (manager.serveAll requests).value.1.Books (past ++ (manager.serveAll requests).trace)
      (taken + intakeOf requests (manager.serveAll requests).value.2) := by
  induction requests generalizing manager past taken with
  | nil =>
      rw [StreamManager.serveAll, Traced.trace_pure, List.append_nil]
      exact books
  | cons request requests ih =>
      have later := ih (books.serve request)
      rw [StreamManager.serveAll, Traced.trace_bind, Traced.trace_bind, Traced.trace_pure,
        List.append_nil, ← List.append_assoc]
      change Books _ _ (_ + (_ + intakeOf requests _))
      rw [← Nat.add_assoc]
      exact later

end Books

theorem Leads.sound_ready {start : Moment algorithm U} {ready : List (Context algorithm U)}
    {work : Traced (Effect U) (StreamManager algorithm U × Option (Context algorithm U))}
    (leads : Leads start ready work) (sound : start.Sound) :
    ∀ context ∈ work.value.2.toList, context.residue.Sound algorithm :=
  fun context among =>
    (leads.path.sound sound).ready context (List.mem_append_right ready among)

theorem sound_contexts_submit (sound : manager.Sound) {context : Context algorithm U}
    (contextSound : context.residue.Sound algorithm) (piece : List UInt8) (flag : Flag) :
    ∀ other ∈ (Answer.received (manager.submit context piece flag).value.2).contexts,
      other.residue.Sound algorithm := by
  rcases verdict : context.refusalOf? flag with - | cause
  · have nextSound := (Context.orderly_firstStep
      (Context.sound_accept contextSound flag piece.length) piece).sound
    rw [submit_of_accepted verdict]
    exact (leads_takeUp sound nextSound [] (List.forall_mem_nil _)).sound_ready
      (Moment.sound_proceed sound.scheduler (List.forall_mem_nil _) _ nextSound)
  · rw [submit_of_refused verdict]
    exact List.forall_mem_singleton.mpr contextSound

/-- What comes back from a manager can be submitted again. -/
theorem sound_contexts_serve (sound : manager.Sound) (request : Request algorithm U) :
    ∀ context ∈ (manager.serve request).value.2.contexts, context.residue.Sound algorithm := by
  cases request with
  | submit context contextSound piece flag =>
      exact sound_contexts_submit sound contextSound piece flag
  | submitNumbered context contextSound piece flags =>
      rw [serve, Traced.value_map, submitNumbered]
      rcases Flag.ofNumber flags with cause | flag
      · exact List.forall_mem_singleton.mpr contextSound
      · exact sound_contexts_submit sound contextSound piece flag
  | flush =>
      exact (empties_flush sound [] (List.forall_mem_nil _)).toLeads.sound_ready
        (Moment.sound_of_scheduler sound.scheduler (List.forall_mem_nil _))

end StreamManager

/-- The counters of schedulers and stream managers account for all work, after
any requests: who was admitted is in a lane or handed back, every advance absorbs
something and finishes a job, and the blocks are those given to the provider,
which are those that jobs brought but for what is left in the lanes.  A stream
manager with vacant lanes has absorbed what its accepted pieces have brought. -/
theorem counters_account_for_all_work :
    (∀ (algorithm : Algorithm) (U : Type) (provider : Provider algorithm)
      (requests : List (Scheduler.Request algorithm U)),
      let served := (Scheduler.ofProvider provider).serveAll requests
      served.value.1.Accounts served.trace ∧
        served.value.1.activity.blocks + sumOf Job.blocksLeft served.value.1.lanes.jobs =
          sumOf Job.blocksLeft (requests.filterMap Scheduler.Request.placed?)) ∧
    (∀ (algorithm : Algorithm) (U : Type) (provider : Provider algorithm)
      (requests : List (StreamManager.Request algorithm U)),
      let served := (StreamManager.ofProvider provider).serveAll requests
      served.value.1.scheduler.Accounts served.trace ∧
        (served.value.1.scheduler.isEmpty = true →
          served.value.1.scheduler.activity.blocks =
            StreamManager.intakeOf requests served.value.2)) := by
  refine ⟨fun algorithm U provider requests => ?_, fun algorithm U provider requests => ?_⟩
  · have unused := StreamManager.sound_ofProvider (U := U) provider
    obtain ⟨accounts, brought⟩ := Scheduler.accounts_serveAll unused.scheduler unused.vacancy
      (Scheduler.accounts_ofProvider provider) requests
    rw [List.nil_append] at accounts
    exact ⟨accounts, accounts.brought.trans brought⟩
  · have books := (StreamManager.books_ofProvider provider).serveAll requests
    refine ⟨books.accounts, fun empty => ?_⟩
    have balance := books.balance
    rw [books.sound.scheduler.isEmpty_iff.mp empty, sumOf_nil, Nat.zero_add] at balance
    exact balance

def twoPieces : List (StreamManager.Request .md5 Nat) :=
  [.submit (.fresh 0) (Residue.sound_empty .md5) (List.replicate 130 0) .entire,
    .submit { (.fresh 1 : Context .md5 Nat) with
        status := .processing
        residue := ⟨List.replicate 128 0, 10⟩ }
      ⟨by decide +kernel, by decide +kernel⟩ (List.replicate 60 0) .last,
    .flush, .flush]

/-- The pieces bring three blocks and two, and they are absorbed in two lanes. -/
theorem counters_account_for_all_work_twoPieces :
    let served := (StreamManager.ofProvider (Provider.portable 2)).serveAll twoPieces
    served.value.1.scheduler.isEmpty = true ∧
      served.value.1.scheduler.Accounts served.trace ∧
      served.value.1.scheduler.activity.blocks = 3 + 2 := by
  intro served
  have empty : served.value.1.scheduler.isEmpty = true := by decide +kernel
  obtain ⟨accounts, taken⟩ :=
    counters_account_for_all_work.2 .md5 Nat (Provider.portable 2) twoPieces
  exact ⟨empty, accounts, (taken empty).trans (by decide +kernel)⟩

end LaneHash
