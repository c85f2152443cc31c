import LaneHash.Diagnostics.TraceEvent

/-!
# What trace events count as

A trace event counts as a diagnostic when the text behind the last pair of colons
in its target is one of the names of a category, and one of its fields is a
message.  Colons are paired from the end: behind three of them begins the same text
as behind two.
-/

namespace LaneHash

/-- The names by which the targets of trace events can end in a category. -/
def Category.leaves : Category → List String
  | sched => ["sched", "scheduler"]
  | ctx => ["ctx", "context", "manager"]
  | dispatch => ["dispatch", "dispatcher"]

namespace TraceEvent

/-- The text of a path behind its last pair of colons, or the whole path if it has
none. -/
def IsLeaf (path leaf : String) : Prop :=
  leaf = path ∧ (∀ before after, path.toList ≠ before ++ ':' :: ':' :: after) ∨
    ∃ before, path.toList = before ++ ':' :: ':' :: leaf.toList ∧
      ∀ other after, path.toList = other ++ ':' :: ':' :: after → other.length ≤ before.length

structure CountsAs (event : TraceEvent) (diagnostic : Diagnostic) : Prop where
  leaf : ∃ leaf, IsLeaf event.target leaf ∧ leaf ∈ diagnostic.category.leaves
  level : diagnostic.level =
    match event.severity with
    | .error | .warn | .info => 1
    | .debug => 2
    | .trace => 3
  message : event.message.rendered? = some diagnostic.message

/-- Up to the first pair of colons there is none, and none that begins earlier. -/
theorem beforeColons_cases (characters : List Char) :
    beforeColons characters = characters ∧
        (∀ before after, characters ≠ before ++ ':' :: ':' :: after) ∨
      ∃ rest, characters = beforeColons characters ++ ':' :: ':' :: rest ∧
        ∀ before after, characters = before ++ ':' :: ':' :: after →
          (beforeColons characters).length ≤ before.length := by
  fun_induction beforeColons characters with
  | case1 rest => exact .inr ⟨rest, rfl, fun before after _ => Nat.zero_le _⟩
  | case2 character rest apart ih =>
      -- A pair further on is a pair of the rest; one at the front has been excluded.
      have later {before after : List Char}
          (split : character :: rest = before ++ ':' :: ':' :: after) :
          ∃ shorter, before = character :: shorter ∧ rest = shorter ++ ':' :: ':' :: after := by
        cases before with
        | nil =>
            obtain ⟨colon, colons⟩ := List.cons.inj split
            exact absurd colons (apart after colon)
        | cons first shorter =>
            obtain ⟨rfl, rest_eq⟩ := List.cons.inj split
            exact ⟨shorter, rfl, rest_eq⟩
      rcases ih with ⟨whole, none⟩ | ⟨after, split, first⟩
      · refine .inl ⟨by rw [whole], fun before after split => ?_⟩
        obtain ⟨shorter, -, rest_eq⟩ := later split
        exact none shorter after rest_eq
      · refine .inr ⟨after, by rw [List.cons_append, ← split], fun before after split => ?_⟩
        obtain ⟨shorter, rfl, rest_eq⟩ := later split
        simpa using first shorter after rest_eq
  | case3 => exact .inl ⟨rfl, by simp⟩

theorem reverse_split {characters before after : List Char} :
    characters = before ++ ':' :: ':' :: after ↔
      characters.reverse = after.reverse ++ ':' :: ':' :: before.reverse := by
  rw [← List.reverse_inj]
  simp

theorem isLeaf_lastSegment (path : String) : IsLeaf path (lastSegment path) := by
  rcases beforeColons_cases path.toList.reverse with ⟨whole, none⟩ | ⟨rest, split, first⟩
  · refine .inl ⟨?_, fun before after split => ?_⟩
    · rw [lastSegment, whole, List.reverse_reverse, String.ofList_toList]
    · exact none _ _ (reverse_split.mp split)
  · refine .inr ⟨rest.reverse, ?_, fun other after split' => ?_⟩
    · rw [reverse_split, lastSegment, String.toList_ofList, List.reverse_reverse,
        List.reverse_reverse]
      exact split
    · have earlier := first _ _ (reverse_split.mp split')
      have one := congrArg List.length split
      have other := congrArg List.length split'
      simp only [List.length_reverse, List.length_append, List.length_cons] at *
      omega

-- Of three colons the first belongs to the segment before.
example : lastSegment "engine:::sched" = "sched" := by decide

theorem IsLeaf.unique {path leaf other : String} (isLeaf : IsLeaf path leaf)
    (isOther : IsLeaf path other) : leaf = other := by
  rcases isLeaf with ⟨rfl, none⟩ | ⟨before, split, last⟩ <;>
    rcases isOther with ⟨rfl, otherNone⟩ | ⟨otherBefore, otherSplit, otherLast⟩
  · rfl
  · exact absurd otherSplit (none _ _)
  · exact absurd split (otherNone _ _)
  · have same : before.length = otherBefore.length :=
      Nat.le_antisymm (otherLast _ _ split) (last _ _ otherSplit)
    have parts := List.append_inj (split.symm.trans otherSplit) same
    exact String.toList_inj.mp (by simpa using parts.2)

theorem categoryOfSegment?_eq_some_iff {segment : String} {category : Category} :
    categoryOfSegment? segment = some category ↔ segment ∈ category.leaves := by
  rw [categoryOfSegment?]
  split
  · next named => rcases named with rfl | rfl <;> cases category <;> decide
  · split
    · next named => rcases named with rfl | rfl | rfl <;> cases category <;> decide
    · split
      · next named => rcases named with rfl | rfl <;> cases category <;> decide
      · cases category <;> simp_all [Category.leaves]

theorem diagnostic?_eq_some_iff {event : TraceEvent} {diagnostic : Diagnostic} :
    event.diagnostic? = some diagnostic ↔ event.CountsAs diagnostic := by
  have leaf_iff (category : Category) :
      categoryOfSegment? (lastSegment event.target) = some category ↔
        ∃ leaf, IsLeaf event.target leaf ∧ leaf ∈ category.leaves := by
    rw [categoryOfSegment?_eq_some_iff]
    constructor
    · intro among
      exact ⟨_, isLeaf_lastSegment event.target, among⟩
    · rintro ⟨leaf, isLeaf, among⟩
      rw [(isLeaf_lastSegment event.target).unique isLeaf]
      exact among
  have level_eq : event.severity.level =
      match event.severity with
      | .error | .warn | .info => 1
      | .debug => 2
      | .trace => 3 := by
    cases event.severity <;> rfl
  obtain ⟨category, level, message⟩ := diagnostic
  rw [diagnostic?]
  constructor
  · intro counted
    split at counted
    · next named text =>
        cases counted
        exact ⟨(leaf_iff category).mp named, level_eq, text⟩
    · cases counted
  · rintro ⟨leaf, same, text⟩
    rw [(leaf_iff category).mpr leaf, text, level_eq, ← same]

def IsMessage (field : TraceField) : Prop :=
  field.name = "message" ∧ field.value ≠ .absent

instance : DecidablePred IsMessage :=
  fun _ => inferInstanceAs (Decidable (_ ∧ _))

theorem foldl_replace {α β : Type} (value : α → β) (items : List α) (first : β) :
    items.foldl (fun _ item => value item) first = (items.getLast?.map value).getD first := by
  induction items generalizing first with
  | nil => rfl
  | cons item items ih =>
      rw [List.foldl_cons, ih, List.getLast?_cons]
      cases items.getLast? <;> rfl

/-- An event made of fields carries the last one that holds a message. -/
theorem rendered?_ofFields {target text : String} {severity : Severity}
    {fields : List TraceField} :
    (ofFields target severity fields).message.rendered? = some text ↔
      ∃ field, (fields.filter fun field => IsMessage field).getLast? = some field ∧
        field.value.rendered? = some text := by
  have last : (ofFields target severity fields).message =
      ((fields.filter fun field => IsMessage field).getLast?.map TraceField.value).getD
        .absent := by
    rw [← foldl_replace, List.foldl_filter]
    change fields.foldl MessageField.visit .absent = _
    congr 1
    funext known field
    change (if IsMessage field then field.value else known) =
      if decide (IsMessage field) = true then field.value else known
    by_cases message : IsMessage field
    · rw [if_pos message, if_pos (decide_eq_true message)]
    · rw [if_neg message, if_neg (by simpa using message)]
  rw [last]
  cases (fields.filter fun field => IsMessage field).getLast? with
  | none => simp [MessageField.rendered?]
  | some field => simp

end TraceEvent

end LaneHash
