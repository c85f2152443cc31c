import LaneHash.RecordText

/-!
# Diagnostic categories and their levels

Every diagnostic belongs to a category and to a level of detail.  A
configuration gives each category the finest level that is wanted; a category
at level zero is silent except for diagnostics of level zero.  Configurations
are built from one overall level, or adjusted by tokens such as `sched2`.
-/

namespace LaneHash

/-- What a diagnostic is about: the scheduling of lanes, the transitions of contexts, or the
choice of a backend. -/
inductive Category where
  | sched
  | ctx
  | dispatch
  deriving DecidableEq, Repr

namespace Category

def all : List Category :=
  [sched, ctx, dispatch]

def name : Category → String
  | sched => "sched"
  | ctx => "ctx"
  | dispatch => "dispatch"

def ofName? (text : String) : Option Category :=
  all.find? fun category => category.name == text

def title : Category → String
  | sched => "Sched"
  | ctx => "Ctx"
  | dispatch => "Dispatch"

def ofTitle? (text : String) : Option Category :=
  all.find? fun category => category.title == text

end Category

/-- The level wanted in each category. -/
structure Levels where
  sched : UInt8 := 0
  ctx : UInt8 := 0
  dispatch : UInt8 := 0
  deriving DecidableEq, Repr

namespace Levels

def get (levels : Levels) : Category → UInt8
  | .sched => levels.sched
  | .ctx => levels.ctx
  | .dispatch => levels.dispatch

def set (levels : Levels) : Category → UInt8 → Levels
  | .sched, level => { levels with sched := level }
  | .ctx, level => { levels with ctx := level }
  | .dispatch, level => { levels with dispatch := level }

def uniform (level : UInt8) : Levels :=
  ⟨level, level, level⟩

def enables (levels : Levels) (category : Category) (level : UInt8) : Bool :=
  level ≤ levels.get category

/-- The levels of an overall verbosity: first the choice of backend, then the
outline of everything, then all detail. -/
def ofVerbosity (verbosity : UInt8) : Levels :=
  if verbosity = 0 then {}
  else if verbosity = 1 then { dispatch := 1 }
  else if verbosity = 2 then uniform 1
  else uniform 2

/-- Level one is wanted from verbosity two on, and of the choice of a backend from one
on; level two is wanted from verbosity three on, and a finer one never. -/
theorem enables_ofVerbosity_iff (verbosity : UInt8) (category : Category) (level : UInt8) :
    (ofVerbosity verbosity).enables category level ↔
      level = 0 ∨
        level = 1 ∧ (category = .dispatch ∧ verbosity = 1 ∨ 2 ≤ verbosity) ∨
        level = 2 ∧ 3 ≤ verbosity := by
  simp only [enables, decide_eq_true_eq, UInt8.le_iff_toNat_le, ← UInt8.toNat_inj]
  fun_cases ofVerbosity verbosity with
  | case1 => cases category <;> simp_all [get]
  | case2 =>
      subst verbosity
      cases category <;> simp [get]
      omega
  | case3 =>
      subst verbosity
      cases category <;> simp [uniform, get] <;> omega
  | case4 silent choice outline =>
      have fine : 3 ≤ verbosity.toNat := by
        simp only [← UInt8.toNat_inj, UInt8.reduceToNat] at silent choice outline
        omega
      cases category <;> simp [uniform, get] <;> omega

@[simp]
theorem get_uniform (level : UInt8) (category : Category) :
    (uniform level).get category = level := by
  cases category <;> rfl

@[simp]
theorem get_set_self (levels : Levels) (category : Category) (level : UInt8) :
    (levels.set category level).get category = level := by
  cases category <;> rfl

theorem get_set_of_ne (levels : Levels) {changed other : Category} (level : UInt8)
    (different : other ≠ changed) :
    (levels.set changed level).get other = levels.get other := by
  cases changed <;> cases other <;> first | rfl | exact absurd rfl different

def describe (levels : Levels) : String :=
  RecordText.full "VerbosityConfig" [
    RecordText.field "debug" (RecordText.full "DebugLevels" [
      RecordText.field "sched" (RecordText.number levels.sched.toNat),
      RecordText.field "ctx" (RecordText.number levels.ctx.toNat),
      RecordText.field "dispatch" (RecordText.number levels.dispatch.toNat)])]

end Levels

end LaneHash
