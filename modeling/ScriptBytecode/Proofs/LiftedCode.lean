import ScriptBytecode.Operation.Lift
import ScriptBytecode.Proofs.Answers
import ScriptBytecode.Proofs.WalkedCode

/-!
# Lifted code

Lifting goes over the instructions of a walk and takes in the operations of each.  It fails with the
error of the first instruction without operations, or else with the error that ended the walk.
-/

namespace ScriptBytecode

/-! ## Operations of an instruction -/

theorem AddressForm.operations_ne_nil (form : AddressForm) (immediate : Int) :
    form.operations immediate ≠ [] := by
  obtain ⟨kind, access⟩ := form
  cases kind <;> simp [operations, AddressKind.operations]

namespace Instruction

variable {natives : Array UInt64} {instruction : Instruction} {operations : List Operation}

theorem operandOperations?_ne_nil
    (lifted : instruction.operandOperations? natives = .ok operations) :
    operations ≠ [] := by
  unfold operandOperations? at lifted
  dsimp only at lifted
  split at lifted
  case h_10 =>
    split at lifted
    · cases lifted
      simp
    · cases lifted
  case h_19 => cases lifted
  all_goals
    cases lifted
    simp

/-- An instruction that can be lifted has an operation. -/
theorem operations_ne_nil
    (lifted : instruction.operations natives = .ok operations) :
    operations ≠ [] := by
  unfold Instruction.operations at lifted
  simp only at lifted
  split at lifted
  · cases lifted
    exact AddressForm.operations_ne_nil _ _
  · cases lifted
    simp
  · split at lifted
    · cases lifted
      simp
    · cases lifted
      simp
    · split at lifted
      · cases lifted
        simp
      · split at lifted
        · cases lifted
          simp
        · exact operandOperations?_ne_nil lifted

end Instruction

open Instruction

/-! ## Lifting instructions -/

/-- The operations of instructions, with their addresses. -/
def liftedOf? (natives : Array UInt64) : List Instruction → Option (List LiftedOperation)
  | [] => some []
  | instruction :: rest => do
    let operations ← (instruction.operations natives).toOption
    let others ← liftedOf? natives rest
    return operations.map (LiftedOperation.mk instruction.ip) ++ others

theorem liftedOf?_append (natives : Array UInt64) (left right : List Instruction) :
    liftedOf? natives (left ++ right) =
      (liftedOf? natives left).bind fun lifted => (liftedOf? natives right).map (lifted ++ ·) := by
  induction left with
  | nil => simp [liftedOf?]
  | cons instruction rest ih =>
      rw [List.cons_append, liftedOf?, liftedOf?, ih]
      cases (instruction.operations natives).toOption with
      | none => rfl
      | some operations =>
          cases liftedOf? natives rest with
          | none => rfl
          | some others => cases liftedOf? natives right <;> simp

/-- Appends the operations of an instruction. -/
def appendLifted (natives : Array UInt64) (lifted : Array LiftedOperation)
    (instruction : Instruction) : Except Error (Array LiftedOperation) := do
  let operations ← instruction.operations natives
  return lifted.appendList (operations.map (LiftedOperation.mk instruction.ip))

theorem foldlM_appendLifted
    (natives : Array UInt64)
    (instructions : List Instruction)
    (lifted : Array LiftedOperation) :
    (instructions.foldlM (appendLifted natives) lifted).toOption =
      (liftedOf? natives instructions).map fun others => lifted ++ others.toArray := by
  induction instructions generalizing lifted with
  | nil => simp [liftedOf?, pure, Except.pure, Except.toOption]
  | cons instruction rest ih =>
      rw [List.foldlM_cons, liftedOf?, appendLifted]
      cases instruction.operations natives with
      | error error => rfl
      | ok operations =>
          simp only [bind, Except.bind, pure, Except.pure]
          rw [ih]
          cases liftedOf? natives rest with
          | none => rfl
          | some others =>
              refine congrArg some (Array.toList_inj.mp ?_)
              simp

theorem isEmpty_codeOf (instructions : List Instruction) :
    (codeOf instructions).isEmpty = instructions.isEmpty := by
  cases instructions with
  | nil => rfl
  | cons instruction rest =>
      have positive := instruction.size_pos
      unfold Instruction.size at positive
      rw [List.isEmpty_cons, Array.isEmpty_eq_false_iff]
      intro empty
      have size := congrArg Array.size empty
      rw [codeOf, Array.size_append, Array.size_empty] at size
      omega

/-! ## Lifting by the walk -/

section Lift

variable {code : Bytes} {natives : Array UInt64}

theorem appendLifted_eq (natives : Array UInt64) :
    appendLifted natives = fun lifted instruction =>
      (instruction.operations natives).map fun operations =>
        lifted.appendList (operations.map (LiftedOperation.mk instruction.ip)) := by
  funext lifted instruction
  unfold appendLifted
  cases instruction.operations natives <;> rfl

/-- Code that is not empty is lifted in one pass over its walk. -/
theorem lift_eq_of_ne_empty
    (notEmpty : code ≠ #[])
    (natives : Array UInt64) :
    lift code natives =
      ((walk code).instructions.toList.foldlM (appendLifted natives) #[] >>= fun lifted =>
        match (walk code).failure with
        | some error => .error error
        | none => .ok (lifted.push ⟨code.size, .endOfScript⟩)) := by
  unfold lift
  rw [if_neg (by simpa using notEmpty), Array.foldlM_toList]
  rfl

/-- Lifting the code of instructions gives the operations of each of them. -/
theorem lift_codeOf
    {instructions : List Instruction}
    (wellFormed : ∀ instruction ∈ instructions, instruction.WellFormed)
    (consecutive : Consecutive 0 instructions)
    (natives : Array UInt64) :
    (lift (codeOf instructions) natives).toOption =
      (liftedOf? natives instructions).map fun lifted =>
        if instructions.isEmpty then #[]
        else (lifted ++ [⟨(codeOf instructions).size, .endOfScript⟩]).toArray := by
  cases empty : instructions.isEmpty with
  | true =>
      rw [List.isEmpty_iff.mp empty]
      rfl
  | false =>
      have notEmpty : codeOf instructions ≠ #[] := by
        rwa [← Array.isEmpty_eq_false_iff, isEmpty_codeOf]
      rw [lift_eq_of_ne_empty notEmpty, walk_codeOf wellFormed consecutive, toOption_bind_ok,
        foldlM_appendLifted, Option.map_map]
      apply Option.map_congr
      intro lifted _
      simp

/-- Lifting fails at the first instruction without operations, or where the walk fails. -/
theorem lift_eq_error_iff
    {error : Error} :
    lift code natives = .error error ↔
      (∃ before instruction after,
        (walk code).instructions.toList = before ++ instruction :: after ∧
          (∀ earlier ∈ before, ∃ operations, earlier.operations natives = .ok operations) ∧
          instruction.operations natives = .error error) ∨
        (∀ instruction ∈ (walk code).instructions.toList,
          ∃ operations, instruction.operations natives = .ok operations) ∧
          (walk code).failure = some error := by
  rcases eq_or_ne code #[] with rfl | notEmpty
  · simp [lift, walk, Walk.walkFrom, pure, Except.pure]
  · rw [lift_eq_of_ne_empty notEmpty, appendLifted_eq, ← foldlM_map_eq_error_iff,
      ← exists_foldlM_map_eq_ok_iff]
    cases (List.foldlM _ _ (walk code).instructions.toList : Except Error _) with
    | error found => simp [bind, Except.bind]
    | ok lifted => cases (walk code).failure <;> simp [bind, Except.bind]

theorem exists_lift_eq_ok_iff :
    (∃ lifted, lift code natives = .ok lifted) ↔
      (walk code).failure = none ∧ ∀ instruction ∈ (walk code).instructions.toList,
        ∃ operations, instruction.operations natives = .ok operations := by
  rcases eq_or_ne code #[] with rfl | notEmpty
  · simp [lift, walk, Walk.walkFrom, pure, Except.pure]
  · rw [lift_eq_of_ne_empty notEmpty, appendLifted_eq, ← exists_foldlM_map_eq_ok_iff]
    cases (List.foldlM _ _ (walk code).instructions.toList : Except Error _) with
    | error found => simp [bind, Except.bind]
    | ok lifted => cases (walk code).failure <;> simp [bind, Except.bind]

/-- What code that is not empty is lifted to: the operations of its instructions, and the end. -/
theorem liftedOf?_of_lift
    (notEmpty : code ≠ #[])
    {lifted : Array LiftedOperation}
    (isLifted : lift code natives = .ok lifted) :
    (walk code).failure = none ∧ ∃ operations,
      liftedOf? natives (walk code).instructions.toList = some operations ∧
        lifted.toList = operations ++ [⟨code.size, .endOfScript⟩] := by
  rw [lift_eq_of_ne_empty notEmpty] at isLifted
  obtain ⟨found, folded, isLifted⟩ := exists_of_bind_eq_ok isLifted
  have isFound := foldlM_appendLifted natives (walk code).instructions.toList #[]
  rw [folded] at isFound
  obtain ⟨operations, areOperations, rfl⟩ := Option.map_eq_some_iff.mp isFound.symm
  cases failure : (walk code).failure with
  | some error =>
      rw [failure] at isLifted
      cases isLifted
  | none =>
      rw [failure] at isLifted
      cases isLifted
      exact ⟨rfl, operations, areOperations, by simp⟩

end Lift
end ScriptBytecode
