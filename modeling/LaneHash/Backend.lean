import LaneHash.Diagnostics.TraceEvent
import LaneHash.Provider

/-!
# Backends

A backend stands for a width of vector registers, and gives the number of lanes
that keep them full.  Every backend uses the portable provider in its width.
Choosing one is announced as a diagnostic and as a trace event.
-/

namespace LaneHash

/-- The widths of vector registers that are told apart. -/
inductive Backend where
  | avx512
  | avx2
  | neon
  | portable
  deriving DecidableEq, Repr

namespace Backend

def all : List Backend :=
  [avx512, avx2, neon, portable]

def lanes : Backend → Nat
  | avx512 => 16
  | avx2 => 8
  | neon => 4
  | portable => 4

def name : Backend → String
  | avx512 => "avx512"
  | avx2 => "avx2"
  | neon => "neon"
  | portable => "portable"

def ofName? (text : String) : Option Backend :=
  all.find? fun backend => backend.name == text

def title : Backend → String
  | avx512 => "Avx512"
  | avx2 => "Avx2"
  | neon => "Neon"
  | portable => "Portable"

def describe (backend : Backend) : String :=
  RecordText.full "Dispatcher" [RecordText.field "backend" backend.title]

def provider (backend : Backend) {algorithm : Algorithm} : Provider algorithm :=
  .portable backend.lanes

/-- The wording of the announcement of a backend by its name and width. -/
def announcement (name lanes : String) : String :=
  "selected " ++ name ++ " backend (" ++ lanes ++ " lanes)"

/-- The diagnostic that a backend has been chosen. -/
def selected (backend : Backend) : Diagnostic :=
  ⟨.dispatch, 1, announcement backend.name (toString backend.lanes)⟩

def selectedEvent : TraceEvent :=
  .ofEngine .dispatch "selected backend"

end Backend

end LaneHash
