import Mathlib.Logic.Relation
import ScriptBytecode.CodeUnit
import ScriptBytecode.Proofs.Statements

/-!
# What unit calls change

Every call of a code unit but one fails and leaves the unit as it is, or succeeds with one change.
The exception is the call of a native, which looks the native up first and then appends the call.
What every change keeps is therefore kept by every call.
-/

namespace ScriptBytecode

/-- The state that a call leaves, whether it succeeds or fails. -/
def stateAfter {α : Type} : EStateM.Result Error CodeUnit α → CodeUnit
  | .ok _ next => next
  | .error _ next => next

theorem stateAfter_ignore {α : Type} (action : UnitM α) (codeUnit : CodeUnit) :
    stateAfter ((do let _ ← action : UnitM Unit) codeUnit) = stateAfter (action codeUnit) := by
  simp only [bind, EStateM.bind]
  cases action codeUnit <;> rfl

namespace CodeUnit

/-- A code unit in which a function is being written. -/
def opened (codeUnit : CodeUnit) (name : String) (arena : Arena) : CodeUnit :=
  { codeUnit with current := some ⟨name, arena⟩ }

/-- A code unit with a further native. -/
def withNative (codeUnit : CodeUnit) (hash : UInt64) : CodeUnit :=
  { codeUnit with
    natives := codeUnit.natives.push hash
    nativeIndices :=
      codeUnit.nativeIndices.insert hash (UInt16.ofNat codeUnit.natives.size) }

/-! ## Outcomes of calls -/

section Outcomes

variable (codeUnit : CodeUnit)

theorem beginFunction_outcomes (name : String) :
    (∃ error, beginFunction name codeUnit = .error error codeUnit) ∨
      codeUnit.current = none ∧ codeUnit.finished.any (·.name == name) = false ∧
        beginFunction name codeUnit = .ok () (codeUnit.opened name {}) := by
  unfold beginFunction
  split_ifs with isOpen isUsed
  · exact .inl ⟨_, rfl⟩
  · exact .inl ⟨_, rfl⟩
  · exact .inr ⟨Option.not_isSome_iff_eq_none.mp isOpen, Bool.eq_false_iff.mpr isUsed, rfl⟩

theorem label_outcomes (name : String) :
    (∃ error, label name codeUnit = .error error codeUnit) ∨
      ∃ function, codeUnit.current = some function ∧ name.isEmpty = false ∧
        function.arena.hasLabel name = false ∧
        label name codeUnit =
          .ok () (codeUnit.opened function.name (function.arena.addLabel name)) := by
  unfold label
  split_ifs with isEmpty
  · exact .inl ⟨_, rfl⟩
  · cases isOpen : codeUnit.current with
    | none => exact .inl ⟨_, rfl⟩
    | some function =>
        dsimp only
        split_ifs with isUsed
        · exact .inl ⟨_, rfl⟩
        · exact .inr ⟨function, rfl, Bool.eq_false_iff.mpr isEmpty, Bool.eq_false_iff.mpr isUsed,
            rfl⟩

theorem emit_outcomes (statement : Statement) :
    (maxSwitchCases < statement.caseCount ∧
        emit statement codeUnit = .error (.tooManySwitchCases statement.caseCount) codeUnit) ∨
      (codeUnit.current = none ∧
        emit statement codeUnit = .error (.misplaced .instructionOutsideFunction) codeUnit) ∨
      ∃ function handle, codeUnit.current = some function ∧
        statement.caseCount ≤ maxSwitchCases ∧
        emit statement codeUnit = .ok handle (codeUnit.opened function.name
          (function.arena.push
            ⟨statement.fragment.bytes, statement.fragment.references, []⟩).2) := by
  obtain ⟨finished, current, natives, nativeIndices⟩ := codeUnit
  unfold emit Statement.encode
  split_ifs with tooMany
  · exact .inl ⟨tooMany, rfl⟩
  · cases current with
    | none => exact .inr (.inl ⟨rfl, rfl⟩)
    | some function => exact .inr (.inr ⟨function, _, rfl, Nat.not_lt.mp tooMany, rfl⟩)

theorem endFunction_outcomes :
    (∃ error, endFunction codeUnit = .error error codeUnit) ∨
      ∃ function, codeUnit.current = some function ∧
        endFunction codeUnit =
          .ok ()
            { codeUnit with
              finished := codeUnit.finished.push ⟨function.name, function.arena.close⟩
              current := none } := by
  obtain ⟨finished, current, natives, nativeIndices⟩ := codeUnit
  cases current with
  | none => exact .inl ⟨_, rfl⟩
  | some function => exact .inr ⟨function, rfl, rfl⟩

theorem nativeIndex_outcomes (hash : UInt64) :
    (∃ index, codeUnit.nativeIndices[hash]? = some index ∧
        nativeIndex hash codeUnit = .ok index codeUnit) ∨
      (codeUnit.nativeIndices[hash]? = none ∧ codeUnit.natives.size < maxNatives ∧
        nativeIndex hash codeUnit =
          .ok (UInt16.ofNat codeUnit.natives.size) (codeUnit.withNative hash)) ∨
      codeUnit.nativeIndices[hash]? = none ∧ maxNatives ≤ codeUnit.natives.size ∧
        nativeIndex hash codeUnit = .error (.malformed .tooManyNatives) codeUnit := by
  unfold nativeIndex
  cases codeUnit.nativeIndices[hash]? with
  | some index => exact .inl ⟨index, rfl, rfl⟩
  | none =>
      dsimp only
      split_ifs with full
      · exact .inr (.inr ⟨rfl, full, rfl⟩)
      · exact .inr (.inl ⟨rfl, Nat.not_le.mp full, rfl⟩)

end Outcomes

section Successes

variable {codeUnit : CodeUnit} {name : String} {function : FunctionCode}

theorem beginFunction_of_outside
    (outside : codeUnit.current = none)
    (fresh : codeUnit.finished.any (·.name == name) = false) :
    beginFunction name codeUnit = .ok () (codeUnit.opened name {}) := by
  simp only [beginFunction, outside, fresh, Option.isSome_none, Bool.false_eq_true, if_false,
    opened]

theorem label_of_open
    (isOpen : codeUnit.current = some function)
    (notEmpty : name.isEmpty = false)
    (fresh : function.arena.hasLabel name = false) :
    label name codeUnit =
      .ok () (codeUnit.opened function.name (function.arena.addLabel name)) := by
  simp only [label, isOpen, notEmpty, fresh, Bool.false_eq_true, if_false, opened]

theorem emit_of_open
    (isOpen : codeUnit.current = some function)
    {statement : Statement}
    (fewCases : statement.caseCount ≤ maxSwitchCases) :
    ∃ handle, emit statement codeUnit = .ok handle (codeUnit.opened function.name
      (function.arena.push ⟨statement.fragment.bytes, statement.fragment.references, []⟩).2) := by
  rcases codeUnit.emit_outcomes statement with
    ⟨tooMany, -⟩ | ⟨outside, -⟩ | ⟨other, handle, isOther, -, emitted⟩
  · exact absurd fewCases (Nat.not_le.mpr tooMany)
  · cases isOpen.symm.trans outside
  · cases isOpen.symm.trans isOther
    exact ⟨handle, emitted⟩

end Successes

/-! ## Changes -/

/-- A statement that is allowed, or that calls a native of the unit. -/
inductive MayEmit (allowed : Statement → Prop) (codeUnit : CodeUnit) : Statement → Prop
  | statement
      {statement : Statement}
      (isAllowed : allowed statement) :
      MayEmit allowed codeUnit statement
  | native
      (parameters returns : UInt8)
      {hash : UInt64}
      {index : UInt16}
      (known : codeUnit.nativeIndices[hash]? = some index) :
      MayEmit allowed codeUnit (.native parameters returns index)

/-- What calls can change in a code unit while they emit allowed statements. -/
inductive Change (allowed : Statement → Prop) (codeUnit : CodeUnit) : CodeUnit → Prop
  | beginFunction
      (name : String)
      (outside : codeUnit.current = none)
      (fresh : codeUnit.finished.any (·.name == name) = false) :
      Change allowed codeUnit (codeUnit.opened name {})
  | label
      (name : String)
      (function : FunctionCode)
      (isOpen : codeUnit.current = some function)
      (notEmpty : name.isEmpty = false)
      (fresh : function.arena.hasLabel name = false) :
      Change allowed codeUnit (codeUnit.opened function.name (function.arena.addLabel name))
  | emit
      (statement : Statement)
      (mayEmit : codeUnit.MayEmit allowed statement)
      (function : FunctionCode)
      (isOpen : codeUnit.current = some function)
      (fewCases : statement.caseCount ≤ maxSwitchCases) :
      Change allowed codeUnit (codeUnit.opened function.name
        (function.arena.push ⟨statement.fragment.bytes, statement.fragment.references, []⟩).2)
  | addNative
      (hash : UInt64)
      (unknown : codeUnit.nativeIndices[hash]? = none)
      (room : codeUnit.natives.size < maxNatives) :
      Change allowed codeUnit (codeUnit.withNative hash)
  | endFunction
      (function : FunctionCode)
      (isOpen : codeUnit.current = some function) :
      Change allowed codeUnit
        { codeUnit with
          finished := codeUnit.finished.push ⟨function.name, function.arena.close⟩
          current := none }

/-- Any number of changes, one after the other. -/
abbrev Changes (allowed : Statement → Prop) : CodeUnit → CodeUnit → Prop :=
  Relation.ReflTransGen (Change allowed)

/-- What every change keeps is kept by any number of them. -/
theorem Changes.keep
    {allowed : Statement → Prop} {property : CodeUnit → Prop}
    (keep : ∀ {codeUnit next : CodeUnit}, property codeUnit → Change allowed codeUnit next →
      property next)
    {codeUnit last : CodeUnit}
    (changes : Changes allowed codeUnit last)
    (holds : property codeUnit) :
    property last := by
  induction changes with
  | refl => exact holds
  | tail _ change ih => exact keep ih change

section Changes

variable {allowed : Statement → Prop} {codeUnit : CodeUnit}

theorem changes_beginFunction (name : String) :
    Changes allowed codeUnit (stateAfter (beginFunction name codeUnit)) := by
  rcases codeUnit.beginFunction_outcomes name with ⟨error, failed⟩ | ⟨outside, fresh, began⟩
  · rw [failed]
    exact .refl
  · rw [began]
    exact .single (.beginFunction name outside fresh)

theorem changes_label (name : String) :
    Changes allowed codeUnit (stateAfter (label name codeUnit)) := by
  rcases codeUnit.label_outcomes name with
    ⟨error, failed⟩ | ⟨function, isOpen, notEmpty, fresh, placed⟩
  · rw [failed]
    exact .refl
  · rw [placed]
    exact .single (.label name function isOpen notEmpty fresh)

theorem changes_emit
    {statement : Statement}
    (mayEmit : codeUnit.MayEmit allowed statement) :
    Changes allowed codeUnit (stateAfter (emit statement codeUnit)) := by
  rcases codeUnit.emit_outcomes statement with
    ⟨-, failed⟩ | ⟨-, failed⟩ | ⟨function, handle, isOpen, fewCases, emitted⟩
  · rw [failed]
    exact .refl
  · rw [failed]
    exact .refl
  · rw [emitted]
    exact .single (.emit statement mayEmit function isOpen fewCases)

theorem changes_endFunction :
    Changes allowed codeUnit (stateAfter (endFunction codeUnit)) := by
  rcases codeUnit.endFunction_outcomes with ⟨error, failed⟩ | ⟨function, isOpen, ended⟩
  · rw [failed]
    exact .refl
  · rw [ended]
    exact .single (.endFunction function isOpen)

theorem changes_nativeIndex (hash : UInt64) :
    Changes allowed codeUnit (stateAfter (nativeIndex hash codeUnit)) := by
  rcases codeUnit.nativeIndex_outcomes hash with
    ⟨index, -, found⟩ | ⟨unknown, room, added⟩ | ⟨-, -, refused⟩
  · rw [found]
    exact .refl
  · rw [added]
    exact .single (.addNative hash unknown room)
  · rw [refused]
    exact .refl

/-- A native that is looked up is known from then on. -/
theorem nativeIndices_of_nativeIndex
    {hash : UInt64} {index : UInt16} {next : CodeUnit}
    (answered : nativeIndex hash codeUnit = .ok index next) :
    next.nativeIndices[hash]? = some index := by
  rcases codeUnit.nativeIndex_outcomes hash with
    ⟨_, known, found⟩ | ⟨-, -, added⟩ | ⟨-, -, refused⟩
  · cases found.symm.trans answered
    exact known
  · cases added.symm.trans answered
    exact Std.TreeMap.getElem?_insert_self
  · cases refused.symm.trans answered

theorem changes_native (parameters returns : UInt8) (hash : UInt64) :
    Changes allowed codeUnit (stateAfter (native parameters returns hash codeUnit)) := by
  have looked : Changes allowed codeUnit _ := changes_nativeIndex hash
  simp only [native, bind, EStateM.bind]
  cases result : nativeIndex hash codeUnit with
  | error error next =>
      rw [result] at looked
      exact looked
  | ok index next =>
      rw [result] at looked
      have known := nativeIndices_of_nativeIndex result
      exact looked.trans (changes_emit (.native parameters returns known))

end Changes

end CodeUnit
end ScriptBytecode
