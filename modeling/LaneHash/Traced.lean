/-!
# Values with a trace

`Traced ε α` pairs a value with the effects that computing it has had, oldest
first.  What an operation returns is its `value`, which can be reasoned about
without looking at the trace; what an observer sees is its `trace`, which
sequencing appends.
-/

namespace LaneHash

/-- A value and the effects on the way to it, oldest first. -/
structure Traced (ε α : Type) where
  value : α
  trace : List ε
  deriving DecidableEq, Repr

namespace Traced

variable {ε α β : Type}

instance : Monad (Traced ε) where
  pure value := ⟨value, []⟩
  bind first next := ⟨(next first.value).value, first.trace ++ (next first.value).trace⟩

instance : LawfulMonad (Traced ε) := LawfulMonad.mk' (Traced ε)
  (by
    intro α traced
    cases traced
    simp [Functor.map])
  (by
    intro α β value next
    simp [Bind.bind, Pure.pure])
  (by
    intro α β γ traced next last
    simp [Bind.bind])

@[simp]
theorem value_pure (value : α) : (pure value : Traced ε α).value = value :=
  rfl

@[simp]
theorem trace_pure (value : α) : (pure value : Traced ε α).trace = [] :=
  rfl

@[simp]
theorem value_bind (first : Traced ε α) (next : α → Traced ε β) :
    (first >>= next).value = (next first.value).value :=
  rfl

@[simp]
theorem trace_bind (first : Traced ε α) (next : α → Traced ε β) :
    (first >>= next).trace = first.trace ++ (next first.value).trace :=
  rfl

@[simp]
theorem value_map (function : α → β) (traced : Traced ε α) :
    (function <$> traced).value = function traced.value :=
  rfl

@[simp]
theorem trace_map (function : α → β) (traced : Traced ε α) :
    (function <$> traced).trace = traced.trace :=
  List.append_nil _

@[simp]
theorem value_mapM (function : α → Traced ε β) (items : List α) :
    (items.mapM function).value = items.map fun item => (function item).value := by
  induction items with
  | nil => rfl
  | cons item items ih => simp [List.mapM_cons, ih]

@[simp]
theorem trace_mapM (function : α → Traced ε β) (items : List α) :
    (items.mapM function).trace = items.flatMap fun item => (function item).trace := by
  induction items with
  | nil => rfl
  | cons item items ih => simp [List.mapM_cons, ih]

/-- Only what the second step makes of the first value matters. -/
theorem bind_congr_of_value {first : Traced ε α} {next other : α → Traced ε β}
    (same : next first.value = other first.value) : first >>= next = first >>= other := by
  simp only [Bind.bind, same]

/-- Sequencing in which the second step knows where its input comes from. -/
def follow (first : Traced ε α) (next : (value : α) → first.value = value → Traced ε β) :
    Traced ε β :=
  let second := next first.value rfl
  ⟨second.value, first.trace ++ second.trace⟩

@[simp]
theorem value_follow (first : Traced ε α)
    (next : (value : α) → first.value = value → Traced ε β) :
    (first.follow next).value = (next first.value rfl).value :=
  rfl

@[simp]
theorem trace_follow (first : Traced ε α)
    (next : (value : α) → first.value = value → Traced ε β) :
    (first.follow next).trace = first.trace ++ (next first.value rfl).trace :=
  rfl

/-- A second step that makes no use of where its input comes from is ordinary
sequencing. -/
theorem follow_eq_bind (first : Traced ε α)
    (next : (value : α) → first.value = value → Traced ε β) (plain : α → Traced ε β)
    (same : ∀ value source, next value source = plain value) :
    first.follow next = first >>= plain := by
  simp [follow, Bind.bind, same]

def emit (effect : ε) : Traced ε Unit :=
  ⟨(), [effect]⟩

@[simp]
theorem trace_emit (effect : ε) : (emit effect).trace = [effect] :=
  rfl

def emitUnless (condition : Prop) [Decidable condition] (effect : ε) : Traced ε Unit :=
  if condition then ⟨(), []⟩ else emit effect

end Traced

end LaneHash
