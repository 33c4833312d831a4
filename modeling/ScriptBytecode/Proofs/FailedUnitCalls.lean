import ScriptBytecode.Proofs.UnitNatives

/-!
# Unit calls that fail

A code unit goes on after a call that fails.  Every call but one checks all it has to before it
changes anything, so it leaves the unit as it is when it fails.  The exception is the call of a
native: its hash is added to the table first, and it stays there if no function is open.
-/

namespace ScriptBytecode

variable {α : Type} {codeUnit next : CodeUnit}

/-- A call of a code unit, or the look up of a native in its table. -/
inductive UnitRequest where
  | unitCall (call : UnitCall)
  | nativeIndex (hash : UInt64)
deriving DecidableEq, Repr

/-- Makes a request. -/
def UnitRequest.run : UnitRequest → UnitM Unit
  | .unitCall call => call.run
  | .nativeIndex hash => do
    let _ ← CodeUnit.nativeIndex hash

/-- A request whose statement, if any, has operands of the kind its opcode takes. -/
def UnitRequest.Emittable : UnitRequest → Prop
  | .unitCall call => call.Emittable
  | .nativeIndex _ => True

instance (request : UnitRequest) : Decidable request.Emittable :=
  match request with
  | .unitCall call => inferInstanceAs (Decidable call.Emittable)
  | .nativeIndex _ => .isTrue trivial

/-- Requests make changes only, whatever they emit. -/
theorem UnitRequest.changes (request : UnitRequest) (codeUnit : CodeUnit) :
    CodeUnit.Changes (fun _ => True) codeUnit (stateAfter (request.run codeUnit)) := by
  cases request with
  | unitCall call => exact UnitCall.changes fun _ _ => trivial
  | nativeIndex hash =>
      rw [run, stateAfter_ignore]
      exact CodeUnit.changes_nativeIndex hash

/-- A call whose answer is ignored fails as the call does. -/
theorem ignore_eq_error_iff
    {action : UnitM α} {error : Error} :
    (do let _ ← action : UnitM Unit) codeUnit = .error error next ↔
      action codeUnit = .error error next := by
  simp only [bind, EStateM.bind]
  cases action codeUnit <;> simp [pure, EStateM.pure]

/-- A call whose answer is ignored succeeds as the call does. -/
theorem ignore_eq_ok_iff
    {action : UnitM α} :
    (do let _ ← action : UnitM Unit) codeUnit = .ok () next ↔
      ∃ answer, action codeUnit = .ok answer next := by
  simp only [bind, EStateM.bind]
  cases action codeUnit <;> simp [pure, EStateM.pure]

namespace CodeUnit

/-- The state that requests leave; a session goes on after a request that fails. -/
def afterRequests (requests : List UnitRequest) : CodeUnit :=
  requests.foldl (fun codeUnit request => stateAfter (request.run codeUnit)) {}

/-- The call of a native that is new to a table with room for it, while no function is open. -/
structure AddsInVain (codeUnit : CodeUnit) (request : UnitRequest) (hash : UInt64) : Prop where
  isNative : ∃ parameters returns, request = .unitCall (.native parameters returns hash)
  outside : codeUnit.current = none
  absent : hash ∉ codeUnit.natives
  room : codeUnit.natives.size < maxNatives

/-! ## Failures of each call -/

section Failures

variable {codeUnit next : CodeUnit} {error : Error} {name : String} {parameters : UInt8}
    {request : UnitRequest} {returns : UInt8} {hash : UInt64}

theorem eq_of_beginFunction_failed
    (failed : beginFunction name codeUnit = .error error next) :
    next = codeUnit := by
  rcases codeUnit.beginFunction_outcomes name with ⟨_, unchanged⟩ | ⟨-, -, began⟩
  · cases unchanged.symm.trans failed
    rfl
  · cases began.symm.trans failed

theorem eq_of_label_failed
    (failed : label name codeUnit = .error error next) :
    next = codeUnit := by
  rcases codeUnit.label_outcomes name with ⟨_, unchanged⟩ | ⟨_, -, -, -, placed⟩
  · cases unchanged.symm.trans failed
    rfl
  · cases placed.symm.trans failed

theorem eq_of_endFunction_failed
    (failed : endFunction codeUnit = .error error next) :
    next = codeUnit := by
  rcases codeUnit.endFunction_outcomes with ⟨_, unchanged⟩ | ⟨_, -, ended⟩
  · cases unchanged.symm.trans failed
    rfl
  · cases ended.symm.trans failed

theorem eq_of_nativeIndex_failed
    (failed : nativeIndex hash codeUnit = .error error next) :
    next = codeUnit := by
  rcases codeUnit.nativeIndex_outcomes hash with ⟨_, -, found⟩ | ⟨-, -, added⟩ | ⟨-, -, refused⟩
  · cases found.symm.trans failed
  · cases added.symm.trans failed
  · cases refused.symm.trans failed
    rfl

/-- A statement with an encoding is refused only outside of functions. -/
theorem emit_failed
    {statement : Statement}
    (failed : emit statement codeUnit = .error error next) :
    next = codeUnit ∧ (statement.caseCount ≤ maxSwitchCases →
      codeUnit.current = none ∧ error = .misplaced .instructionOutsideFunction) := by
  rcases codeUnit.emit_outcomes statement with
    ⟨tooMany, unchanged⟩ | ⟨outside, unchanged⟩ | ⟨_, _, -, -, emitted⟩
  · cases unchanged.symm.trans failed
    exact ⟨rfl, fun few => absurd few (Nat.not_le.mpr tooMany)⟩
  · cases unchanged.symm.trans failed
    exact ⟨rfl, fun _ => ⟨outside, rfl⟩⟩
  · cases emitted.symm.trans failed

/-- The call of a native has an encoding, so it fails only outside of functions. -/
theorem emit_native_failed
    {index : UInt16}
    (failed : emit (.native parameters returns index) codeUnit = .error error next) :
    codeUnit.current = none ∧ error = .misplaced .instructionOutsideFunction ∧ next = codeUnit := by
  obtain ⟨same, misplaced⟩ := emit_failed failed
  obtain ⟨outside, isError⟩ := misplaced (Nat.zero_le _)
  exact ⟨outside, isError, same⟩

/-- A native that is looked up is known, and nothing changes, or it is added. -/
theorem nativeIndex_cases
    (indexed : codeUnit.Indexed)
    (hash : UInt64) :
    (∃ index, nativeIndex hash codeUnit = .ok index codeUnit ∧ hash ∈ codeUnit.natives) ∨
      (∃ index, nativeIndex hash codeUnit = .ok index (codeUnit.withNative hash) ∧
        hash ∉ codeUnit.natives ∧ codeUnit.natives.size < maxNatives) ∨
      nativeIndex hash codeUnit = .error (.malformed .tooManyNatives) codeUnit ∧
        maxNatives ≤ codeUnit.natives.size := by
  rcases codeUnit.nativeIndex_outcomes hash with
    ⟨index, known, found⟩ | ⟨unknown, room, added⟩ | ⟨-, full, refused⟩
  · have isThere := (indexed.indices hash index).mp known
    exact .inl ⟨index, found, Array.mem_of_getElem? isThere⟩
  · have absent := indexed.nativeIndices_eq_none_iff.mp unknown
    exact .inr (.inl ⟨_, added, absent, room⟩)
  · exact .inr (.inr ⟨refused, full⟩)

/-- The call of a native is emitted after its index is looked up. -/
theorem exists_of_native
    {handle : Handle}
    (called : native parameters returns hash codeUnit = .ok handle next) :
    ∃ index middle, nativeIndex hash codeUnit = .ok index middle ∧
      emit (.native parameters returns index) middle = .ok handle next := by
  simp only [native, bind, EStateM.bind] at called
  cases looked : nativeIndex hash codeUnit with
  | ok index middle =>
      rw [looked] at called
      exact ⟨index, middle, rfl, called⟩
  | error error middle =>
      rw [looked] at called
      cases called

/-- The call of a native fails without a change, or adds the native and fails for want of an open
function. -/
theorem native_failed
    (indexed : codeUnit.Indexed)
    (failed : native parameters returns hash codeUnit = .error error next) :
    (¬codeUnit.AddsInVain (.unitCall (.native parameters returns hash)) hash ∧ next = codeUnit) ∨
      codeUnit.AddsInVain (.unitCall (.native parameters returns hash)) hash ∧
        error = .misplaced .instructionOutsideFunction ∧ next = codeUnit.withNative hash := by
  simp only [native, bind, EStateM.bind] at failed
  rcases nativeIndex_cases indexed hash with
    ⟨index, found, known⟩ | ⟨index, added, absent, room⟩ | ⟨refused, full⟩
  · rw [found] at failed
    exact .inl ⟨fun inVain => inVain.absent known, (emit_native_failed failed).2.2⟩
  · rw [added] at failed
    obtain ⟨outside, isError, isNext⟩ := emit_native_failed failed
    exact .inr ⟨⟨⟨_, _, rfl⟩, outside, absent, room⟩, isError, isNext⟩
  · rw [refused] at failed
    cases failed
    exact .inl ⟨fun inVain => Nat.not_le.mpr inVain.room full, rfl⟩

/-- A request that fails leaves the unit as it is, unless it adds a native in vain. -/
theorem request_failed
    (indexed : codeUnit.Indexed)
    (failed : request.run codeUnit = .error error next) :
    ((∀ hash, ¬codeUnit.AddsInVain request hash) ∧ next = codeUnit) ∨
      ∃ hash, codeUnit.AddsInVain request hash ∧
        error = .misplaced .instructionOutsideFunction ∧ next = codeUnit.withNative hash := by
  have unchanged : (∀ parameters returns hash,
      request ≠ .unitCall (.native parameters returns hash)) → next = codeUnit →
      (∀ hash, ¬codeUnit.AddsInVain request hash) ∧ next = codeUnit := by
    refine fun notNative same => ⟨fun hash inVain => ?_, same⟩
    obtain ⟨parameters, returns, isNative⟩ := inVain.isNative
    exact notNative parameters returns hash isNative
  cases request with
  | nativeIndex hash =>
      exact .inl (unchanged (by rintro _ _ _ ⟨⟩)
        (eq_of_nativeIndex_failed (ignore_eq_error_iff.mp failed)))
  | unitCall call =>
      cases call with
      | beginFunction name =>
          exact .inl (unchanged (by rintro _ _ _ ⟨⟩) (eq_of_beginFunction_failed failed))
      | label name =>
          exact .inl (unchanged (by rintro _ _ _ ⟨⟩) (eq_of_label_failed failed))
      | emit statement =>
          exact .inl (unchanged (by rintro _ _ _ ⟨⟩)
            (emit_failed (ignore_eq_error_iff.mp failed)).1)
      | endFunction =>
          exact .inl (unchanged (by rintro _ _ _ ⟨⟩) (eq_of_endFunction_failed failed))
      | native parameters returns hash =>
          rcases native_failed indexed (ignore_eq_error_iff.mp failed) with
            ⟨notInVain, same⟩ | ⟨inVain, isError, isNext⟩
          · refine .inl ⟨fun other inVain => ?_, same⟩
            obtain ⟨_, _, isNative⟩ := inVain.isNative
            cases isNative
            exact notInVain inVain
          · exact .inr ⟨hash, inVain, isError, isNext⟩

/-- The call of a native that is added in vain fails. -/
theorem AddsInVain.run_eq
    (inVain : codeUnit.AddsInVain request hash)
    (indexed : codeUnit.Indexed) :
    request.run codeUnit =
      .error (.misplaced .instructionOutsideFunction) (codeUnit.withNative hash) := by
  obtain ⟨⟨parameters, returns, rfl⟩, outside, absent, room⟩ := inVain
  have added := indexed.nativeIndex_of_not_mem absent room
  apply ignore_eq_error_iff.mpr
  simp only [native, bind, EStateM.bind, added]
  obtain ⟨finished, current, natives, nativeIndices⟩ := codeUnit
  cases outside
  rfl

end Failures

/-! ## Sessions -/

namespace Indexed

variable {codeUnit : CodeUnit}

/-- Every request keeps the table indexed. -/
theorem step (indexed : codeUnit.Indexed) (request : UnitRequest) :
    (stateAfter (request.run codeUnit)).Indexed :=
  indexed.changes (request.changes codeUnit)

/-- The table of a session is indexed. -/
theorem afterRequests (requests : List UnitRequest) : (afterRequests requests).Indexed :=
  List.foldlRecOn requests _ indexed_empty fun _ indexed request _ => indexed.step request

end Indexed

/-- A request that fails leaves the unit exactly as it was, unless it is the call of a native that
is new to the table while no function is open.  Such a call always fails, and leaves the native in
the table. -/
theorem afterRequests_failed
    (history : List UnitRequest)
    (request : UnitRequest) :
    (∀ error next, request.run (afterRequests history) = .error error next →
        (∀ hash, ¬(afterRequests history).AddsInVain request hash) →
        next = afterRequests history) ∧
      ∀ hash, (afterRequests history).AddsInVain request hash →
        request.run (afterRequests history) =
          .error (.misplaced .instructionOutsideFunction)
            ((afterRequests history).withNative hash) := by
  have indexed := Indexed.afterRequests history
  refine ⟨fun error next failed notInVain => ?_, fun hash inVain => inVain.run_eq indexed⟩
  rcases request_failed indexed failed with ⟨-, same⟩ | ⟨hash, inVain, -, -⟩
  · exact same
  · exact absurd inVain (notInVain hash)

/-- A label that is placed twice changes nothing the second time, and a second native is added to
the table in vain. -/
theorem afterRequests_failed_twice :
    (∃ next, (UnitRequest.unitCall (.label "a")).run
          (afterRequests [.unitCall (.beginFunction "f"), .unitCall (.label "a")]) =
          .error (.duplicateLabel "f" "a") next ∧
        next = afterRequests [.unitCall (.beginFunction "f"), .unitCall (.label "a")]) ∧
      (UnitRequest.unitCall (.native 0 0 1)).run (afterRequests [.nativeIndex 7]) =
        .error (.misplaced .instructionOutsideFunction)
          ((afterRequests [.nativeIndex 7]).withNative 1) := by
  constructor
  · obtain ⟨next, failed⟩ : ∃ next, (UnitRequest.unitCall (.label "a")).run
        (afterRequests [.unitCall (.beginFunction "f"), .unitCall (.label "a")]) =
        .error (.duplicateLabel "f" "a") next := by
      simp [UnitRequest.run, afterRequests, UnitCall.run, label, beginFunction, stateAfter,
        Arena.hasLabel, Arena.entries, Arena.addLabel]
    refine ⟨next, failed, (afterRequests_failed _ _).1 _ _ failed fun hash inVain => ?_⟩
    obtain ⟨_, _, isNative⟩ := inVain.isNative
    cases isNative
  · have isNatives : (afterRequests [.nativeIndex 7]).natives = #[7] := rfl
    have absent : 1 ∉ (afterRequests [.nativeIndex 7]).natives := by simp [isNatives]
    have room : (afterRequests [.nativeIndex 7]).natives.size < maxNatives := by
      rw [isNatives]
      decide
    exact (afterRequests_failed _ _).2 1 ⟨⟨0, 0, rfl⟩, rfl, absent, room⟩

/-- The call of a native outside of functions fails, but its hash is in the table from then on. -/
theorem native_outside_function :
    ∃ error next, (UnitRequest.unitCall (.native 0 0 1)).run {} = .error error next ∧
      next.natives = #[1] ∧ ({} : CodeUnit).natives = #[] :=
  ⟨_, _, rfl, rfl, rfl⟩

end CodeUnit
end ScriptBytecode
