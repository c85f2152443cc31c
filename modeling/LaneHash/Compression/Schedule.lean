import LaneHash.Word

/-!
# Sliding message schedules

Three of the compression functions stretch the sixteen words of a block into a
longer sequence in which every word is computed from the sixteen before it.
The sequence is read off a window that slides by one word per step, so no step
ever looks outside the window.
-/

namespace LaneHash.Schedule

variable {α : Type}

def slide (window : Vector α 16) (newest : α) : Vector α 16 :=
  (window.eraseIdx 0).push newest

/-- The first `count` windows of the sequence that begins with the sixteen
words of `window` and goes on by `next`. -/
def windows (next : Vector α 16 → α) : (count : Nat) → Vector α 16 → List (Vector α 16)
  | 0, _ => []
  | count + 1, window => window :: windows next count (slide window (next window))

def words (next : Vector α 16 → α) (count : Nat) (window : Vector α 16) : List α :=
  (windows next count window).map fun current => current[0]

@[simp]
theorem length_windows (next : Vector α 16 → α) (count : Nat) (window : Vector α 16) :
    (windows next count window).length = count := by
  induction count generalizing window with
  | zero => rfl
  | succ count ih => simp [windows, ih]

end LaneHash.Schedule
