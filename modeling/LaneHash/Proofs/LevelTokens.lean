import LaneHash.Diagnostics.Recorder

/-!
# What level tokens mean

A token names one category, or all of them, and may go on with the decimal digits
of a level that fits a byte; without digits it asks for level one.  Such a token
sets what it names and nothing else.  Any other token is refused for the first of
four reasons that applies to it, and leaves the levels as they are.
-/

namespace LaneHash

inductive Scope where
  | every
  | only (category : Category)

namespace Scope

def name : Scope → String
  | every => "all"
  | only .sched => "sched"
  | only .ctx => "ctx"
  | only .dispatch => "dispatch"

/-- Whether a level that is set under this name becomes that of a category. -/
def covers : Scope → Category → Bool
  | every, _ => true
  | only named, category => named = category

def set (scope : Scope) (levels : Levels) (level : UInt8) : Levels :=
  match scope with
  | every => .uniform level
  | only category => levels.set category level

theorem get_set (scope : Scope) (levels : Levels) (level : UInt8) (category : Category) :
    (scope.set levels level).get category =
      if scope.covers category then level else levels.get category := by
  cases scope with
  | every => exact Levels.get_uniform level category
  | only named =>
      by_cases same : named = category
      · subst same
        simp [set, covers]
      · rw [set, covers, decide_eq_false same, if_neg Bool.false_ne_true]
        exact Levels.get_set_of_ne levels level fun equal => same equal.symm

theorem ofName?_eq_some_iff {text : String} {category : Category} :
    Category.ofName? text = some category ↔ text = (only category).name := by
  constructor
  · intro found
    have named : category.name = text := by simpa using List.find?_some found
    rw [← named]
    cases category <;> rfl
  · rintro rfl
    cases category <;> rfl

end Scope

namespace LevelToken

def IsDigit (character : Char) : Prop :=
  character ∈ "0123456789".toList

instance : DecidablePred IsDigit :=
  fun character => inferInstanceAs (Decidable (character ∈ "0123456789".toList))

/-- Digits that write a level, with leading zeros or without. -/
structure IsLevel (digits : List Char) (level : UInt8) : Prop where
  nonempty : digits ≠ []
  isDigit : ∀ character ∈ digits, IsDigit character
  value : Nat.ofDigitChars 10 digits 0 = level.toNat

/-- A token asks for a level of what it names. -/
def Means (token : String) (scope : Scope) (level : UInt8) : Prop :=
  ∃ digits, token.toList = scope.name.toList ++ digits ∧
    (digits = [] ∧ level = 1 ∨ IsLevel digits level)

/-- The two parts of a token: what stands before the first digit, and the rest. -/
structure Splits (token : String) (front rest : List Char) : Prop where
  whole : token.toList = front ++ rest
  front : ∀ character ∈ front, ¬ IsDigit character
  rest : ∀ character ∈ rest.head?, IsDigit character

def BeginsWithDigit (token : String) : Prop :=
  ∃ character ∈ token.toList.head?, IsDigit character

/-- There is a digit in a token, but what begins with the first one is not a
level. -/
def HasInvalidLevel (token : String) : Prop :=
  ∃ front rest, Splits token front rest ∧ rest ≠ [] ∧ ∀ level, ¬ IsLevel rest level

/-- The reason for which a token is refused: of those that apply, the first. -/
def Faults (token : String) : TokenError → Prop
  | .empty => token = ""
  | .missingName shown => shown = token ∧ BeginsWithDigit token
  | .invalidLevel shown => shown = token ∧ ¬ BeginsWithDigit token ∧ HasInvalidLevel token
  | .unknownName name => token ≠ "" ∧ ¬ BeginsWithDigit token ∧ ¬ HasInvalidLevel token ∧
      (∃ rest, Splits token name.toList rest) ∧ ∀ scope : Scope, name ≠ scope.name

theorem isDigit_iff {character : Char} :
    IsDigit character ↔ isDecimalDigit character = true := by
  constructor
  · intro digit
    simp only [IsDigit, String.reduceToList, List.mem_cons, List.not_mem_nil, or_false] at digit
    rcases digit with rfl | rfl | rfl | rfl | rfl | rfl | rfl | rfl | rfl | rfl <;> decide
  · intro digit
    have bounds : 48 ≤ character.toNat ∧ character.toNat ≤ 57 := by
      simpa [isDecimalDigit, Char.le_def, UInt32.le_iff_toNat_le] using digit
    have known : character.toNat ∈ "0123456789".toList.map Char.toNat := by
      simp
      omega
    obtain ⟨other, among, same⟩ := List.mem_map.mp known
    rw [← Char.toNat_inj.mp same]
    exact among

theorem decimalValue_eq (digits : List Char) :
    decimalValue digits = Nat.ofDigitChars 10 digits 0 :=
  Nat.ofDigitChars_eq_foldl.symm

theorem decimalByte?_eq_some_iff {digits : List Char} (nonempty : digits ≠ []) {level : UInt8} :
    decimalByte? digits = some level ↔ IsLevel digits level := by
  rw [decimalByte?, decimalValue_eq]
  constructor
  · intro read
    split at read
    · next fits =>
        obtain ⟨allDigits, bound⟩ := fits
        refine ⟨nonempty, fun character among => ?_, ?_⟩
        · exact isDigit_iff.mpr (List.all_eq_true.mp allDigits character among)
        · rw [← Option.some.inj read, UInt8.toNat_ofNat']
          omega
    · cases read
  · intro isLevel
    have allDigits : digits.all isDecimalDigit = true :=
      List.all_eq_true.mpr fun character among => isDigit_iff.mp (isLevel.isDigit character among)
    have bound := level.toNat_lt
    rw [isLevel.value, if_pos ⟨allDigits, by omega⟩, UInt8.ofNat_toNat]

theorem splits (token : String) : Splits token (nameOf token) (digitsOf token) where
  whole := List.takeWhile_append_dropWhile.symm
  front character among digit := by
    have apart := List.all_takeWhile (p := fun character => !isDecimalDigit character)
      (l := token.toList)
    have passes := List.all_eq_true.mp apart character among
    simp [isDigit_iff.mp digit] at passes
  rest character first := by
    have stops := List.head?_dropWhile_not (fun character => !isDecimalDigit character)
      token.toList
    change (digitsOf token).head? = some character at first
    rw [digitsOf] at first
    rw [first] at stops
    simpa [isDigit_iff] using stops

variable {token name : String} {front rest : List Char} {scope : Scope} {level : UInt8}
  {levels : Levels} {cause : TokenError}

theorem Splits.eq (parts : Splits token front rest) :
    front = nameOf token ∧ rest = digitsOf token := by
  have passes : ∀ character ∈ front, (!isDecimalDigit character) = true := by
    intro character among
    have apart := parts.front character among
    rw [isDigit_iff] at apart
    simpa using apart
  rw [nameOf, digitsOf, parts.whole, List.takeWhile_append_of_pos passes,
    List.dropWhile_append_of_pos passes]
  cases rest with
  | nil => simp
  | cons first rest =>
      have digit := isDigit_iff.mp (parts.rest first rfl)
      simp [digit]

theorem name_ne_nil (scope : Scope) : scope.name.toList ≠ [] := by
  rcases scope with - | - | - | - <;> simp [Scope.name]

/-- No name has a digit in it, so a token means what its two parts mean. -/
theorem means_iff : Means token scope level ↔
    nameOf token = scope.name.toList ∧
      (digitsOf token = [] ∧ level = 1 ∨ IsLevel (digitsOf token) level) := by
  have plain : ∀ character ∈ scope.name.toList, ¬ IsDigit character := by
    rcases scope with - | - | - | - <;> simp [Scope.name, IsDigit]
  constructor
  · rintro ⟨digits, whole, reads⟩
    have parts : Splits token scope.name.toList digits := by
      refine ⟨whole, plain, fun character first => ?_⟩
      rcases reads with ⟨rfl, -⟩ | isLevel
      · cases first
      · exact isLevel.isDigit character (List.mem_of_mem_head? first)
    obtain ⟨front, rest⟩ := parts.eq
    rw [← front, ← rest]
    exact ⟨rfl, reads⟩
  · rintro ⟨named, reads⟩
    refine ⟨digitsOf token, ?_, reads⟩
    rw [← named]
    exact (splits token).whole

theorem beginsWithDigit_iff :
    BeginsWithDigit token ↔ token.toList ≠ [] ∧ nameOf token = [] := by
  rw [BeginsWithDigit, nameOf]
  cases token.toList with
  | nil => simp
  | cons first rest => cases digit : isDecimalDigit first <;> simp [isDigit_iff, digit]

theorem hasInvalidLevel_iff :
    HasInvalidLevel token ↔ digitsOf token ≠ [] ∧ decimalByte? (digitsOf token) = none := by
  constructor
  · rintro ⟨front, rest, parts, nonempty, invalid⟩
    rw [← parts.eq.2]
    refine ⟨nonempty, Option.eq_none_iff_forall_ne_some.mpr fun level read => ?_⟩
    exact invalid level ((decimalByte?_eq_some_iff nonempty).mp read)
  · rintro ⟨nonempty, unread⟩
    refine ⟨nameOf token, digitsOf token, splits token, nonempty, fun level isLevel => ?_⟩
    rw [(decimalByte?_eq_some_iff nonempty).mpr isLevel] at unread
    cases unread

theorem parse_eq_ok (named : nameOf token = name.toList) (nonempty : name.toList ≠ [])
    (reads : digitsOf token = [] ∧ level = 1 ∨ IsLevel (digitsOf token) level) :
    parse token = .ok (name, level) := by
  have whole := (splits token).whole
  have present : token.toList ≠ [] := by
    rw [whole, named]
    simp [nonempty]
  rw [parse, if_neg present, if_neg (named ▸ nonempty)]
  rcases reads with ⟨nothing, rfl⟩ | isLevel
  · rw [named, nothing, List.append_nil, String.toList_inj] at whole
    rw [if_pos nothing, whole]
  · rw [if_neg isLevel.nonempty, (decimalByte?_eq_some_iff isLevel.nonempty).mpr isLevel, named,
      String.ofList_toList]

theorem adjust_of_means (means : Means token scope level) :
    levels.adjust token = .ok (scope.set levels level) := by
  obtain ⟨named, reads⟩ := means_iff.mp means
  rw [Levels.adjust, parse_eq_ok named (name_ne_nil scope) reads]
  cases scope with
  | every => rfl
  | only category =>
      have apart : (Scope.only category).name ≠ "all" := by cases category <;> decide
      dsimp only
      rw [if_neg apart, Scope.ofName?_eq_some_iff.mpr rfl]
      rfl

theorem adjust_of_unknown (parsed : parse token = .ok (name, level))
    (unknown : ∀ scope : Scope, name ≠ scope.name) :
    levels.adjust token = .error (.unknownName name) := by
  have absent : Category.ofName? name = none := by
    refine Option.eq_none_iff_forall_ne_some.mpr fun category found => ?_
    exact unknown (.only category) (Scope.ofName?_eq_some_iff.mp found)
  have apart : name ≠ "all" := unknown .every
  rw [Levels.adjust, parsed]
  dsimp only
  rw [if_neg apart, absent]

theorem exists_reads (valid : ¬ HasInvalidLevel token) :
    ∃ level, digitsOf token = [] ∧ level = 1 ∨ IsLevel (digitsOf token) level := by
  by_cases nothing : digitsOf token = []
  · exact ⟨1, .inl ⟨nothing, rfl⟩⟩
  · by_cases read : ∃ level, IsLevel (digitsOf token) level
    · obtain ⟨level, isLevel⟩ := read
      exact ⟨level, .inr isLevel⟩
    · refine absurd ⟨nameOf token, digitsOf token, splits token, nothing, ?_⟩ valid
      exact fun level isLevel => read ⟨level, isLevel⟩

theorem toList_ne_nil (present : token ≠ "") : token.toList ≠ [] := by
  simpa using present

theorem adjust_of_faults (faults : Faults token cause) :
    levels.adjust token = .error cause := by
  cases cause with
  | empty =>
      rw [show token = "" from faults]
      rfl
  | missingName shown =>
      obtain ⟨rfl, begins⟩ := faults
      obtain ⟨present, unnamed⟩ := beginsWithDigit_iff.mp begins
      rw [Levels.adjust, parse, if_neg present, if_pos unnamed]
  | invalidLevel shown =>
      obtain ⟨rfl, named, invalid⟩ := faults
      obtain ⟨nonempty, unread⟩ := hasInvalidLevel_iff.mp invalid
      have present : shown.toList ≠ [] := by
        rw [(splits shown).whole]
        simp [nonempty]
      have front : nameOf shown ≠ [] := fun unnamed =>
        named (beginsWithDigit_iff.mpr ⟨present, unnamed⟩)
      rw [Levels.adjust, parse, if_neg present, if_neg front, if_neg nonempty, unread]
  | unknownName name =>
      obtain ⟨present, named, valid, ⟨rest, parts⟩, unknown⟩ := faults
      have front : name.toList ≠ [] := by
        rw [parts.eq.1]
        exact fun unnamed => named (beginsWithDigit_iff.mpr ⟨toList_ne_nil present, unnamed⟩)
      obtain ⟨level, reads⟩ := exists_reads valid
      exact adjust_of_unknown (parse_eq_ok parts.eq.1.symm front reads) unknown

/-- A token means something, or there is a reason to refuse it. -/
theorem means_or_faults (token : String) :
    (∃ scope level, Means token scope level) ∨ ∃ cause, Faults token cause := by
  by_cases empty : token = ""
  · exact .inr ⟨.empty, empty⟩
  by_cases begins : BeginsWithDigit token
  · exact .inr ⟨.missingName token, rfl, begins⟩
  by_cases invalid : HasInvalidLevel token
  · exact .inr ⟨.invalidLevel token, rfl, begins, invalid⟩
  by_cases known : ∃ scope : Scope, nameOf token = scope.name.toList
  · obtain ⟨scope, named⟩ := known
    obtain ⟨level, reads⟩ := exists_reads invalid
    exact .inl ⟨scope, level, means_iff.mpr ⟨named, reads⟩⟩
  · refine .inr ⟨.unknownName (String.ofList (nameOf token)), empty, begins, invalid,
      ⟨digitsOf token, ?_⟩, fun scope named => known ⟨scope, ?_⟩⟩
    · rw [String.toList_ofList]
      exact splits token
    · rw [← named, String.toList_ofList]

end LevelToken

/-- A recorder that is asked to adjust its levels by a token does so exactly if the
token names a category, or all, and asks for level one or for a level that fits a
byte.  Then the levels of what is named are that level, and all else is as before.
Otherwise the recorder stays as it is, and the reason is the first that applies. -/
theorem Recorder.adjust_by_token (recorder : Recorder) (token : String) :
    let served := recorder.serve (.adjust token)
    (served.2 = .done ↔ ∃ scope level, LevelToken.Means token scope level) ∧
    (∀ scope level, LevelToken.Means token scope level →
      served.1.recorded = recorder.recorded ∧
        ∀ category, served.1.levels.get category =
          if scope.covers category then level else recorder.levels.get category) ∧
    (served.2 = .done ∨ served.1 = recorder ∧ ∃ cause, served.2 = .refused cause) ∧
    ∀ cause, served.2 = .refused cause ↔ LevelToken.Faults token cause := by
  have accepts {scope : Scope} {level : UInt8} (means : LevelToken.Means token scope level) :
      recorder.serve (.adjust token) =
        (recorder.configure (scope.set recorder.levels level), .done) := by
    rw [serve, LevelToken.adjust_of_means means]
  have refuses {cause : TokenError} (faults : LevelToken.Faults token cause) :
      recorder.serve (.adjust token) = (recorder, .refused cause) := by
    rw [serve, LevelToken.adjust_of_faults faults]
  intro served
  have sets (scope : Scope) (level : UInt8) (means : LevelToken.Means token scope level) :
      served.1.recorded = recorder.recorded ∧
        ∀ category, served.1.levels.get category =
          if scope.covers category then level else recorder.levels.get category := by
    rw [show served = _ from accepts means]
    exact ⟨rfl, scope.get_set recorder.levels level⟩
  have refused (cause : TokenError) (faults : LevelToken.Faults token cause) :
      served.2 = .refused cause :=
    congrArg Prod.snd (refuses faults)
  rcases LevelToken.means_or_faults token with ⟨scope, level, means⟩ | ⟨cause, faults⟩
  · have done : served.2 = .done := congrArg Prod.snd (accepts means)
    refine ⟨iff_of_true done ⟨scope, level, means⟩, sets, .inl done, fun cause => ?_⟩
    refine ⟨fun given => ?_, refused cause⟩
    rw [done] at given
    cases given
  · have given := refused cause faults
    have unchanged : served.1 = recorder := congrArg Prod.fst (refuses faults)
    refine ⟨⟨fun done => ?_, ?_⟩, sets, .inr ⟨unchanged, cause, given⟩, fun other => ?_⟩
    · rw [given] at done
      cases done
    · rintro ⟨scope, level, means⟩
      exact congrArg Prod.snd (accepts means)
    · refine ⟨fun same => ?_, refused other⟩
      rw [given] at same
      cases same
      exact faults

/-- Leading zeros count for nothing, and the next number is one too many. -/
theorem Recorder.adjust_by_token_leadingZeros :
    let recorder : Recorder := { levels := ⟨1, 2, 3⟩ }
    let served := recorder.serve (.adjust "ctx00255")
    (LevelToken.Means "ctx00255" (.only .ctx) 255 ∧ served.2 = .done ∧
      ∀ category, served.1.levels.get category =
        if (Scope.only .ctx).covers category then 255 else recorder.levels.get category) ∧
    LevelToken.Faults "ctx00256" (.invalidLevel "ctx00256") ∧
      (recorder.serve (.adjust "ctx00256")).2 = .refused (.invalidLevel "ctx00256") := by
  intro recorder served
  have means : LevelToken.Means "ctx00255" (.only .ctx) 255 :=
    ⟨"00255".toList, by decide, .inr ⟨by decide, by simp [LevelToken.IsDigit], by decide⟩⟩
  have faults : LevelToken.Faults "ctx00256" (.invalidLevel "ctx00256") := by
    refine ⟨rfl, ?_, "ctx".toList, "00256".toList,
      ⟨by decide, by simp [LevelToken.IsDigit], ?_⟩, by decide, ?_⟩
    · rintro ⟨first, begins, digit⟩
      cases begins
      exact absurd digit (by decide)
    · intro first begins
      cases begins
      decide
    · intro level isLevel
      have value : 256 = level.toNat := isLevel.value
      have bound := level.toNat_lt
      omega
  obtain ⟨accepts, sets, -, -⟩ := recorder.adjust_by_token "ctx00255"
  obtain ⟨-, -, -, refuses⟩ := recorder.adjust_by_token "ctx00256"
  exact ⟨⟨means, accepts.mpr ⟨_, _, means⟩, (sets _ _ means).2⟩, faults,
    (refuses _).mpr faults⟩

end LaneHash
