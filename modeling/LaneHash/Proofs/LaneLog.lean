import LaneHash.Decimal
import LaneHash.Proofs.Accounts
import LaneHash.Proofs.Listeners

/-!
# What a log tells of the lanes

A log tells of the lanes by three kinds of sentences: a job takes a lane, several
lanes move on, a finished job leaves its lane.  They can be read back from their
texts and replayed on empty lanes.  The sentences of a history of lanes mirror the
scheduler: replaying them leaves the lanes in use, and they count what the scheduler
counts.
-/

namespace LaneHash

variable {algorithm : Algorithm} {U : Type}

/-- What a sentence of the log tells, with lengths in bytes. -/
inductive LaneEvent where
  | admission (length lane : Nat)
  | advance (lanes blocks : Nat)
  | reap (lane : Nat)
  deriving DecidableEq

def wordsOf (text : String) : List String :=
  (text.toList.splitOn ' ').map String.ofList

def number? (word : String) : Option Nat :=
  if word ≠ "" ∧ word.toList.all isDecimalDigit then some (decimalValue word.toList) else none

namespace LaneEvent

/-- Read a sentence of the log. -/
def read? (text : String) : Option LaneEvent :=
  match wordsOf text with
  | ["admit", length, "bytes", "into", "lane", lane] =>
      (number? length).bind fun length => (number? lane).map fun lane => admission length lane
  | ["advance", lanes, "lanes", "by", blocks, "blocks"] =>
      (number? lanes).bind fun lanes => (number? blocks).map fun blocks => advance lanes blocks
  | ["reap", "lane", lane] => (number? lane).map reap
  | _ => none

/-- The lanes in use after an event.  No lane can be taken twice, or left when
nothing is in it. -/
def occupiedAfter? (occupied : List Nat) : LaneEvent → Option (List Nat)
  | admission _ lane => if lane ∈ occupied then none else some (lane :: occupied)
  | advance _ _ => some occupied
  | reap lane => if lane ∈ occupied then some (occupied.erase lane) else none

/-- The lanes in use after some events, which begin with empty lanes. -/
def replay? (events : List LaneEvent) : Option (List Nat) :=
  events.foldlM occupiedAfter? []

def isAdmission : LaneEvent → Bool
  | admission _ _ => true
  | _ => false

def isAdvance : LaneEvent → Bool
  | advance _ _ => true
  | _ => false

def isReap : LaneEvent → Bool
  | reap _ => true
  | _ => false

def blocks : LaneEvent → Nat
  | advance lanes blocks => lanes * blocks
  | _ => 0

end LaneEvent

/-- The diagnostics of the scheduling category in a log, read one by one, are some
events. -/
def Tells (log : List Diagnostic) (events : List LaneEvent) : Prop :=
  (log.filter fun event => event.category = .sched).map
    (fun event => LaneEvent.read? event.message) = events.map some

/-- The numbers of events are the counters of a scheduler. -/
structure Counts (events : List LaneEvent) (activity : Activity) : Prop where
  admits : events.countP LaneEvent.isAdmission = activity.admitted
  reaps : events.countP LaneEvent.isReap = activity.completed
  advances : events.countP LaneEvent.isAdvance = activity.advances
  blocks : sumOf LaneEvent.blocks events = activity.blocks

/-- Replaying events leaves the lanes of a scheduler that are in use, and counts what
it has counted. -/
structure Mirrors (events : List LaneEvent) (scheduler : Scheduler algorithm U) : Prop where
  lanes : ∃ occupied, LaneEvent.replay? events = some occupied ∧ occupied.Nodup ∧
    ∀ lane, lane ∈ occupied ↔ ∃ job, scheduler.lanes[lane]? = some (some job)
  counts : Counts events scheduler.activity

section Texts

theorem wordsOf_intercalate {words : List String} (some : words ≠ [])
    (plain : ∀ word ∈ words, ' ' ∉ word.toList) :
    wordsOf (" ".intercalate words) = words := by
  rw [wordsOf, String.toList_intercalate]
  change ((([' '].intercalate (words.map String.toList)).splitOn ' ').map String.ofList) = words
  rw [List.splitOn_intercalate, List.map_map]
  · simp [Function.comp_def]
  · simpa using plain
  · simpa using some

theorem blank_not_mem_toDigits (number : Nat) : ' ' ∉ Nat.toDigits 10 number := fun among =>
  absurd (Nat.isDigit_of_mem_toDigits (by decide) (by decide) among) (by decide)

theorem number?_repr (number : Nat) : number? number.repr = some number := by
  have written : number.repr ≠ "" := by simp
  have digits : number.repr.toList.all isDecimalDigit = true := by
    rw [Nat.toList_repr, List.all_eq_true]
    intro character among
    have digit : character.isDigit = true :=
      Nat.isDigit_of_mem_toDigits (by decide) (by decide) among
    simpa [isDecimalDigit, Char.isDigit, Char.le_def] using digit
  rw [number?, if_pos ⟨written, digits⟩, decimalValue, ← Nat.ofDigitChars_eq_foldl,
    Nat.toList_repr, Nat.ofDigitChars_ten_toDigits]

end Texts

namespace LaneEvent

/-- The words by which an event is told. -/
def words : LaneEvent → List String
  | admission length lane => ["admit", toString length, "bytes", "into", "lane", toString lane]
  | advance lanes blocks => ["advance", toString lanes, "lanes", "by", toString blocks, "blocks"]
  | reap lane => ["reap", "lane", toString lane]

theorem read?_words (event : LaneEvent) : read? (" ".intercalate event.words) = some event := by
  have spoken : event.words ≠ [] := by cases event <;> simp [words]
  have plain : ∀ word ∈ event.words, ' ' ∉ word.toList := by
    cases event <;> simp [words, blank_not_mem_toDigits]
  rw [read?, wordsOf_intercalate spoken plain]
  cases event <;> simp [words, number?_repr]

end LaneEvent

def Effect.laneEvent? : Effect U → Option LaneEvent
  | admitted _ lane length => some (.admission length lane)
  | advanced active blocks => some (.advance active blocks)
  | reaped _ lane => some (.reap lane)
  | _ => none

/-- Effects are told in the words of their events. -/
theorem Effect.diagnostic?_of_laneEvent {effect : Effect U} {event : LaneEvent}
    (told : effect.laneEvent? = some event) :
    ∃ level, level ≤ 2 ∧ effect.diagnostic? = some ⟨.sched, level, " ".intercalate event.words⟩ := by
  cases effect <;> cases told
  · refine ⟨2, by decide, ?_⟩
    simp [diagnostic?, LaneEvent.words, ← String.toList_inj]
  · refine ⟨1, by decide, ?_⟩
    simp [diagnostic?, LaneEvent.words, ← String.toList_inj]
  · refine ⟨2, by decide, ?_⟩
    simp [diagnostic?, LaneEvent.words, ← String.toList_inj]

theorem Effect.category_of_laneEvent_eq_none {effect : Effect U} {event : Diagnostic}
    (untold : effect.laneEvent? = none) (logged : effect.diagnostic? = some event) :
    event.category ≠ .sched := by
  cases effect <;> cases untold <;> cases logged <;> simp

theorem Tells.append {log later : List Diagnostic} {events more : List LaneEvent}
    (tells : Tells log events) (tellsLater : Tells later more) :
    Tells (log ++ later) (events ++ more) := by
  rw [Tells, List.filter_append, List.map_append, List.map_append]
  exact congr (congrArg _ tells) tellsLater

/-- With lanes wanted in all detail, the log of an effect tells its event. -/
theorem tells_diagnostics {levels : Levels} (heard : 2 ≤ levels.sched) (effect : Effect U) :
    Tells ((effect.diagnostics false).filter levels.wants) effect.laneEvent?.toList := by
  rw [Effect.diagnostics, if_neg Bool.false_ne_true, List.append_nil]
  cases told : effect.laneEvent? with
  | none =>
      cases logged : effect.diagnostic? with
      | none => rfl
      | some event =>
          have other := Effect.category_of_laneEvent_eq_none told logged
          simp [Tells, List.filter_filter, other]
  | some event =>
      obtain ⟨level, fine, diagnostic_eq⟩ := Effect.diagnostic?_of_laneEvent told
      have wanted : levels.wants ⟨.sched, level, " ".intercalate event.words⟩ = true :=
        decide_eq_true (UInt8.le_trans fine heard)
      simp [Tells, diagnostic_eq, wanted, event.read?_words]

theorem tells_effects {levels : Levels} (heard : 2 ≤ levels.sched) (effects : List (Effect U)) :
    Tells ((effects.flatMap (Effect.diagnostics false)).filter levels.wants)
      (effects.filterMap Effect.laneEvent?) := by
  rw [List.filterMap_eq_flatMap_toList]
  induction effects with
  | nil => rfl
  | cons effect effects ih =>
      rw [List.flatMap_cons, List.filter_append, List.flatMap_cons]
      exact (tells_diagnostics heard effect).append ih

def LaneEvent.tally (activity : Activity) : LaneEvent → Activity
  | admission _ _ => { activity with admitted := activity.admitted + 1 }
  | advance lanes blocks =>
      { activity with
        advances := activity.advances + 1
        blocks := activity.blocks + lanes * blocks }
  | reap _ => { activity with completed := activity.completed + 1 }

theorem Counts.append {events : List LaneEvent} {activity : Activity}
    (counts : Counts events activity) (event : LaneEvent) :
    Counts (events ++ [event]) (event.tally activity) := by
  obtain ⟨admits, reaps, advances, blocks⟩ := counts
  constructor
  · rw [List.countP_append, admits]
    cases event <;> rfl
  · rw [List.countP_append, reaps]
    cases event <;> rfl
  · rw [List.countP_append, advances]
    cases event <;> rfl
  · rw [sumOf_append, blocks]
    cases event <;> rfl

namespace Mirrors

variable {events : List LaneEvent} {effect : Effect U} {effects : List (Effect U)}
  {scheduler first second last : Scheduler algorithm U}

theorem ofProvider (provider : Provider algorithm) :
    Mirrors [] (.ofProvider provider : Scheduler algorithm U) where
  lanes := by
    refine ⟨[], rfl, .nil, fun lane => ?_⟩
    change _ ↔ ∃ job, (List.replicate _ none)[lane]? = some (some job)
    rw [List.getElem?_replicate]
    split <;> simp
  counts := ⟨rfl, rfl, rfl, rfl⟩

theorem replay?_append (events : List LaneEvent) (event : LaneEvent) :
    LaneEvent.replay? (events ++ [event]) =
      (LaneEvent.replay? events).bind fun occupied => event.occupiedAfter? occupied := by
  simp [LaneEvent.replay?, List.foldlM_append, bind]

theorem occupied (mirrors : Mirrors events scheduler) (sound : scheduler.Sound) {lane : Nat}
    {free : List Nat} (top : scheduler.free = lane :: free) (job : Job algorithm U) :
    Mirrors (events ++ [.admission job.work.length lane]) (scheduler.occupied lane free job) where
  lanes := by
    obtain ⟨inUse, replayed, nodup, mem_iff⟩ := mirrors.lanes
    have vacant := sound.vacant_top top
    obtain ⟨within, -⟩ := List.getElem?_eq_some_iff.mp vacant
    have unused : lane ∉ inUse := by
      rw [mem_iff, vacant]
      simp
    refine ⟨lane :: inUse, ?_, List.nodup_cons.mpr ⟨unused, nodup⟩, fun other => ?_⟩
    · rw [replay?_append, replayed]
      exact if_neg unused
    · change _ ↔ ∃ resident, (scheduler.lanes.set lane (some job))[other]? = some (some resident)
      rw [List.mem_cons, List.getElem?_set]
      by_cases same : lane = other
      · subst same
        simp [within]
      · rw [if_neg same, ← mem_iff]
        simp [Ne.symm same]
  counts := mirrors.counts.append _

theorem advancedBy (mirrors : Mirrors events scheduler) (stride : Nat) :
    Mirrors (events ++ [.advance scheduler.lanes.unfinished.length
      (stride / algorithm.blockLength)]) (scheduler.advancedBy stride) where
  lanes := by
    obtain ⟨inUse, replayed, nodup, mem_iff⟩ := mirrors.lanes
    refine ⟨inUse, ?_, nodup, fun lane => ?_⟩
    · rw [replay?_append, replayed]
      rfl
    · change _ ↔ ∃ job, (scheduler.lanes.advanced stride)[lane]? = some (some job)
      rw [mem_iff, Lanes.getElem?_advanced]
      rcases scheduler.lanes[lane]? with - | - | job <;> simp
  counts := mirrors.counts.append _

theorem vacated (mirrors : Mirrors events scheduler) {lane : Nat} {job : Job algorithm U}
    (there : scheduler.lanes[lane]? = some (some job)) :
    Mirrors (events ++ [.reap lane]) (scheduler.vacated lane) where
  lanes := by
    obtain ⟨inUse, replayed, nodup, mem_iff⟩ := mirrors.lanes
    obtain ⟨within, -⟩ := List.getElem?_eq_some_iff.mp there
    have used : lane ∈ inUse := (mem_iff lane).mpr ⟨job, there⟩
    refine ⟨inUse.erase lane, ?_, nodup.erase lane, fun other => ?_⟩
    · rw [replay?_append, replayed]
      exact if_pos used
    · change _ ↔ ∃ resident, (scheduler.lanes.set lane none)[other]? = some (some resident)
      rw [nodup.mem_erase_iff, List.getElem?_set, mem_iff]
      by_cases same : lane = other
      · subst same
        simp [within]
      · rw [if_neg same]
        simp [Ne.symm same]
  counts := mirrors.counts.append _

/-- One change of the lanes is mirrored by what is told of it. -/
theorem shift (mirrors : Mirrors events first) (sound : first.Sound)
    (shift : first.Shift effect second) :
    Mirrors (events ++ effect.laneEvent?.toList) second := by
  cases shift with
  | occupy top jobSound => exact mirrors.occupied sound top _
  | advance found => exact mirrors.advancedBy _
  | vacate found => exact mirrors.vacated (Lanes.firstFinished?_eq_some found).1
  | rest apart =>
      have untold : effect.laneEvent? = none := by
        rcases apart with quiet | ⟨shares, blocks, rfl⟩
        · cases effect <;> simp_all [Effect.isLocal, Effect.laneEvent?]
        · rfl
      rw [untold, Option.toList_none, List.append_nil]
      exact mirrors

theorem history (mirrors : Mirrors events first) (sound : first.Sound)
    (history : first.History effects last) :
    Mirrors (events ++ effects.filterMap Effect.laneEvent?) last := by
  induction history generalizing events with
  | refl =>
      rw [List.filterMap_nil, List.append_nil]
      exact mirrors
  | head change rest ih =>
      have later := ih (mirrors.shift sound change) (change.sound sound)
      rw [List.append_assoc] at later
      rw [List.filterMap_eq_flatMap_toList] at later ⊢
      exact later

end Mirrors

end LaneHash
