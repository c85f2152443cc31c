import LaneHash.Batch
import LaneHash.Proofs.PathInvariants

/-!
# The digests of a batch

Contexts of a batch carry the positions of their messages.  Every message that
has been submitted is under way or ready, in one place; when the manager has
been drained, all are ready, each with the digest of its message.  Put by their
positions they are the digests in the order of the messages, for any width of
the provider and any size of the shards.
-/

namespace LaneHash.Batch

variable {algorithm : Algorithm} {message : Nat → Message} {manager : StreamManager algorithm Nat}
  {ready : List (Context algorithm Nat)}

/-- A batch under way: the contexts serve the messages at their positions, and
nothing has been absorbed for positions to come. -/
structure Underway (message : Nat → Message) (moment : Moment algorithm Nat) : Prop where
  sound : moment.Sound
  vacancy : moment.scheduler.free ≠ []
  distinct : moment.users.Nodup
  serves : ∃ absorbed, moment.Serves id message absorbed ∧
    ∀ position, position ∉ moment.users → absorbed position = []

/-- Messages at some positions have been taken up, and nothing was relied on in
vain. -/
structure TakesUp (message : Nat → Message) (first : Moment algorithm Nat) (positions : List Nat)
    (effects : List (Effect Nat)) (last : Moment algorithm Nat) : Prop where
  underway : Underway message last
  users : last.users.Perm (positions ++ first.users)
  unbroken : ∀ effect ∈ effects, effect.isBreach = false

theorem users_of_idle (idle : manager.scheduler.lanes.jobs = []) :
    (manager.after ready).users = ready.map Context.user := by
  change ready.map Context.user ++ manager.scheduler.lanes.jobs.map _ = _
  rw [idle, List.map_nil, List.append_nil]

theorem users_ofProvider (provider : Provider algorithm) :
    ((StreamManager.ofProvider provider).after [] : Moment algorithm Nat).users = [] :=
  users_of_idle (Scheduler.jobs_ofProvider provider)

theorem underway_ofProvider (provider : Provider algorithm) :
    Underway message ((StreamManager.ofProvider provider).after []) where
  sound := Moment.sound_of_scheduler (Scheduler.sound_ofProvider provider) (List.forall_mem_nil _)
  vacancy := (StreamManager.sound_ofProvider provider).vacancy
  distinct := by
    rw [users_ofProvider]
    exact .nil
  serves := by
    have none : ((StreamManager.ofProvider provider).after [] : Moment algorithm Nat).jobs = [] :=
      Scheduler.jobs_ofProvider provider
    refine ⟨fun _ => [], ⟨?_, List.forall_mem_nil _⟩, fun _ _ => rfl⟩
    rw [none]
    exact List.forall_mem_nil _

theorem Underway.path {first last : Moment algorithm Nat} {effects : List (Effect Nat)}
    (underway : Underway message first) (path : Moment.Path first effects last)
    (vacancy : last.scheduler.free ≠ []) : Underway message last := by
  have users := path.users_perm underway.sound
  obtain ⟨absorbed, serves, untouched⟩ := underway.serves
  refine ⟨path.sound underway.sound, vacancy, users.nodup_iff.mp underway.distinct, ?_⟩
  refine ⟨_, path.serves underway.sound ?_ serves, fun position absent => ?_⟩
  · rw [List.map_id]
    exact underway.distinct
  · have before : position ∉ first.users := fun member => absent (users.mem_iff.mp member)
    have quiet : Effect.absorbedIn id position effects = [] := by
      apply path.absorbedIn_of_absent underway.sound
      rw [List.map_id]
      exact before
    rw [quiet, untouched position before]
    rfl

/-- The first step for a whole message at a position. -/
def openingStep (algorithm : Algorithm) (position : Nat) (bytes : List UInt8) :
    Traced (Effect Nat) (NextStep algorithm Nat) :=
  ((Context.fresh position).accept .entire bytes.length).firstStep bytes

theorem orderly_openingStep (position : Nat) (bytes : List UInt8) :
    NextStep.Orderly ((Context.fresh position).accept .entire bytes.length)
      (openingStep algorithm position bytes) :=
  Context.orderly_firstStep (Context.sound_accept (Residue.sound_empty algorithm) .entire _) bytes

theorem users_openingStep (position : Nat) (bytes : List UInt8) :
    (Moment.proceed manager.scheduler ready (openingStep algorithm position bytes).value).users.Perm
      (position :: (manager.after ready).users) := by
  have kept := Moment.users_proceed manager.scheduler ready
    (openingStep algorithm position bytes).value
  rw [(orderly_openingStep position bytes).user_eq] at kept
  exact kept.trans List.perm_middle

theorem Underway.opening (underway : Underway message (manager.after ready)) {position : Nat}
    {bytes : List UInt8} (new : position ∉ (manager.after ready).users)
    (message_eq : message position = ⟨bytes, true⟩) :
    Underway message
      (.proceed manager.scheduler ready (openingStep algorithm position bytes).value) := by
  obtain ⟨absorbed, serves, untouched⟩ := underway.serves
  have orderly : NextStep.Orderly _ (openingStep algorithm position bytes) :=
    orderly_openingStep position bytes
  have users : (Moment.proceed manager.scheduler ready
      (openingStep algorithm position bytes).value).users.Perm _ :=
    users_openingStep position bytes
  refine ⟨?_, ?_, ?_, absorbed, ?_, ?_⟩
  · exact Moment.sound_proceed underway.sound.scheduler underway.sound.ready _ orderly.sound
  · cases (openingStep algorithm position bytes).value <;> exact underway.vacancy
  · exact users.nodup_iff.mpr (List.nodup_cons.mpr ⟨new, underway.distinct⟩)
  · apply Moment.serves_proceed _ _ serves
    rw [orderly.user_eq]
    change NextStep.Serves (message position) (absorbed position) _
    rw [untouched position new, message_eq]
    have midway : ((Context.fresh position : Context algorithm Nat).accept .entire
        bytes.length).Midway ⟨bytes, true⟩ [] :=
      Context.midway_start (Residue.sound_empty algorithm) rfl bytes
    exact Context.serves_firstStep midway rfl rfl
  · intro other absent
    apply untouched
    intro among
    exact absent (users.mem_iff.mpr (List.mem_cons_of_mem _ among))

theorem Underway.submit (underway : Underway message (manager.after ready)) {position : Nat}
    {bytes : List UInt8} (new : position ∉ (manager.after ready).users)
    (message_eq : message position = ⟨bytes, true⟩) :
    TakesUp message (manager.after ready) [position]
      (manager.submit (.fresh position) bytes .entire).trace
      ((manager.submit (.fresh position) bytes .entire).value.1.after
        (ready ++ (manager.submit (.fresh position) bytes .entire).value.2.ready?.toList)) := by
  have orderly : NextStep.Orderly _ (openingStep algorithm position bytes) :=
    orderly_openingStep position bytes
  have begun := underway.opening new message_eq
  have leads := StreamManager.leads_takeUp ⟨underway.sound.scheduler, underway.vacancy⟩
    orderly.sound ready underway.sound.ready
  have accepted : (Context.fresh position : Context algorithm Nat).refusalOf? .entire = none := rfl
  rw [StreamManager.submit_of_accepted accepted]
  constructor
  · exact begun.path leads.path leads.vacancy
  · exact (leads.path.users_perm begun.sound).symm.trans (users_openingStep position bytes)
  · simp only [Traced.trace_bind, Traced.trace_pure, List.append_nil]
    refine List.forall_mem_append.mpr ⟨fun effect among => ?_, leads.path.isBreach_eq begun.sound⟩
    exact Effect.isBreach_of_isLocal (orderly.isLocal effect among)

theorem Underway.submitAll (underway : Underway message (manager.after ready))
    (items : List (List UInt8 × Nat))
    (distinct : (items.map Prod.snd ++ (manager.after ready).users).Nodup)
    (messages : ∀ item ∈ items, message item.2 = ⟨item.1, true⟩) :
    TakesUp message (manager.after ready) (items.map Prod.snd) (submitAll manager items).trace
      ((submitAll manager items).value.1.after (ready ++ (submitAll manager items).value.2)) := by
  induction items generalizing manager ready with
  | nil =>
      refine ⟨?_, ?_, List.forall_mem_nil _⟩
      · rw [Batch.submitAll, Traced.value_pure, List.append_nil]
        exact underway
      · rw [Batch.submitAll, Traced.value_pure, List.append_nil]
        exact .refl _
  | cons item items ih =>
      obtain ⟨bytes, position⟩ := item
      obtain ⟨first, rest⟩ := List.forall_mem_cons.mp messages
      rw [List.map_cons, List.cons_append, List.nodup_cons] at distinct
      obtain ⟨new, distinct⟩ := distinct
      have taken := underway.submit (fun among => new (List.mem_append_right _ among)) first
      have moved : (items.map Prod.snd ++ position :: (manager.after ready).users).Nodup :=
        List.perm_middle.nodup_iff.mpr (List.nodup_cons.mpr ⟨new, distinct⟩)
      have later := ih taken.underway ((taken.users.append_left _).nodup_iff.mpr moved) rest
      rw [List.append_assoc] at later
      refine ⟨later.underway, ?_, ?_⟩
      · exact later.users.trans ((taken.users.append_left _).trans List.perm_middle)
      · simp only [Batch.submitAll, Traced.trace_bind, Traced.trace_pure, List.append_nil]
        exact List.forall_mem_append.mpr ⟨taken.unbroken, later.unbroken⟩

/-- Draining makes everything ready that is under way. -/
theorem Underway.drain (underway : Underway message (manager.after ready)) :
    Underway message (manager.drain.value.1.after (ready ++ manager.drain.value.2)) ∧
      ((ready ++ manager.drain.value.2).map Context.user).Perm (manager.after ready).users ∧
      ∀ effect ∈ manager.drain.trace, effect.isBreach = false := by
  obtain ⟨path, vacancy, idle⟩ := StreamManager.path_drain
    ⟨underway.sound.scheduler, underway.vacancy⟩ ready underway.sound.ready
  have users := path.users_perm underway.sound
  rw [users_of_idle idle] at users
  exact ⟨underway.path path vacancy, users.symm, path.isBreach_eq underway.sound⟩

/-- What is ready has the digest of its message, if that is whole. -/
theorem Underway.digest_eq {moment : Moment algorithm Nat} (underway : Underway message moment)
    {context : Context algorithm Nat} (member : context ∈ moment.ready)
    (closed : (message context.user).isClosed = true) :
    context.digest? = some (algorithm.digest (message context.user).bytes) := by
  obtain ⟨absorbed, serves, -⟩ := underway.serves
  cases serves.ready context member with
  | unfinished status_eq accepted midway message_eq =>
      have open_eq := midway.status_eq
      rw [id_eq, if_pos closed, status_eq] at open_eq
      cases open_eq
  | finished status_eq _ _ _ _ _ _ _ output_eq =>
      rw [Context.digest?, if_pos status_eq]
      exact output_eq

theorem byPosition_eq {messages : List (List UInt8)} {contexts : List (Context algorithm Nat)}
    (positions : (contexts.map Context.user).Perm (List.range messages.length))
    (digests : ∀ context ∈ contexts,
      context.digest? = messages[context.user]?.map algorithm.digest) :
    byPosition messages.length contexts =
      messages.map fun message => some (algorithm.digest message) := by
  have distinct : (contexts.map Context.user).Nodup := positions.nodup_iff.mpr List.nodup_range
  apply List.ext_getElem?
  intro position
  rw [List.getElem?_map]
  by_cases within : position < messages.length
  · have among := positions.mem_iff.mpr (List.mem_range.mpr within)
    obtain ⟨context, member, rfl⟩ := List.mem_map.mp among
    have there : context.user < (List.replicate messages.length
        (none : Option (List UInt8))).length := by
      rw [List.length_replicate]
      exact within
    rw [byPosition, getElem?_foldl_set_of_mem _ distinct member there, digests context member,
      List.getElem?_eq_getElem within]
    rfl
  · have absent : position ∉ contexts.map Context.user := fun among =>
      within (List.mem_range.mp (positions.mem_iff.mp among))
    rw [byPosition, getElem?_foldl_set_of_not_mem _ absent, List.getElem?_replicate,
      if_neg within, List.getElem?_eq_none (Nat.le_of_not_lt within)]
    rfl

def wholeMessages (messages : List (List UInt8)) (position : Nat) : Message :=
  ⟨messages[position]?.getD [], true⟩

theorem wholeMessages_of_mem {messages : List (List UInt8)} {item : List UInt8 × Nat}
    (member : item ∈ messages.zipIdx) : wholeMessages messages item.2 = ⟨item.1, true⟩ := by
  have there : messages[item.2]? = some item.1 := List.mk_mem_zipIdx_iff_getElem?.mp member
  rw [wholeMessages, there]
  rfl

theorem digests_eq (provider : Provider algorithm) (messages : List (List UInt8)) :
    (digests provider messages).value = messages.map algorithm.digest ∧
      ∀ effect ∈ (digests provider messages).trace, effect.isBreach = false := by
  have numbers : messages.zipIdx.map Prod.snd = List.range messages.length := by
    rw [List.zipIdx_map_snd, List.range_eq_range']
  have empty : Underway (wholeMessages messages) ((StreamManager.ofProvider provider).after []) :=
    underway_ofProvider provider
  have distinct : (messages.zipIdx.map Prod.snd ++
      ((StreamManager.ofProvider provider).after []).users).Nodup := by
    rw [users_ofProvider, List.append_nil, numbers]
    exact List.nodup_range
  have taken := empty.submitAll _ distinct fun item member => wholeMessages_of_mem member
  have submitted := taken.users
  rw [numbers, users_ofProvider, List.append_nil] at submitted
  rw [List.nil_append] at submitted taken
  obtain ⟨drained, kept, unbroken⟩ := taken.underway.drain
  have positions := kept.trans submitted
  have found := byPosition_eq positions fun context member => by
    have among := positions.mem_iff.mp (List.mem_map_of_mem member)
    rw [drained.digest_eq member rfl, wholeMessages,
      List.getElem?_eq_getElem (List.mem_range.mp among)]
    rfl
  have complete : none ∉ messages.map fun message => some (algorithm.digest message) := by
    simp
  unfold digests
  simp only [Traced.value_bind, Traced.trace_bind, found, Effect.rely_eq_pure complete]
  constructor
  · simp
  · simp only [Traced.trace_pure, List.append_nil]
    exact List.forall_mem_append.mpr ⟨taken.unbroken, unbroken⟩

theorem flatten_digests_shards (provider : Provider algorithm) (messages : List (List UInt8))
    (size : Nat) :
    ((shards size messages).mapM (digests provider)).value.flatten =
      messages.map algorithm.digest := by
  have each (shard : List (List UInt8)) :
      (digests provider shard).value = shard.map algorithm.digest :=
    (digests_eq provider shard).1
  simp only [Traced.value_mapM, each]
  rw [← List.map_flatten, flatten_shards]

/-- Whatever the width of the provider, a batch has the digests of its messages in
their order, in one go and in shards of any size, and nothing is relied on in
vain. -/
theorem digests_in_order (provider : Provider algorithm) (messages : List (List UInt8)) :
    (digests provider messages).value = messages.map algorithm.digest ∧
    (shardedDigests provider messages).value = messages.map algorithm.digest ∧
    (∀ size, ((shards size messages).mapM (digests provider)).value.flatten =
      messages.map algorithm.digest) ∧
    ∀ effect ∈ (digests provider messages).trace ++ (shardedDigests provider messages).trace,
      effect.isBreach = false := by
  refine ⟨(digests_eq provider messages).1, flatten_digests_shards provider messages _,
    flatten_digests_shards provider messages, List.forall_mem_append.mpr ⟨?_, ?_⟩⟩
  · exact (digests_eq provider messages).2
  · intro effect among
    rw [shardedDigests, Traced.trace_bind, Traced.trace_mapM, Traced.trace_pure,
      List.append_nil] at among
    obtain ⟨shard, -, inShard⟩ := List.mem_flatMap.mp among
    exact (digests_eq provider shard).2 effect inShard

end LaneHash.Batch
