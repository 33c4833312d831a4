import Mathlib.Algebra.Ring.Nat
import ScriptBytecode.Proofs.LiftedCode
import ScriptBytecode.Proofs.OperandReads
import ScriptBytecode.Proofs.UnreadableCode

/-!
# Where lifting fails

Lifting goes wrong at an instruction for one of four reasons: its byte is no opcode, its bytes are
not all there, no table has its opcode, or the native table is too short for it.  Code is lifted
exactly if there is no such place in it, and otherwise fails with the reason of the first one.
-/

namespace ScriptBytecode

namespace Opcode

/-- Whether one of the tables of opcodes gives the operations of an opcode. -/
def isTabled (opcode : Opcode) : Bool :=
  opcode.addressForm?.isSome || opcode.immediateArith?.isSome || opcode.intConstant?.isSome ||
    opcode.floatConstant?.isSome || opcode.jumpCompare?.isSome || opcode.simpleOperation?.isSome

/-- Whether an opcode has operations of its own, which take in all of its operands. -/
def hasOwnOperations : Opcode → Bool
  | .enter | .leave | .pushConstU8 | .pushConstU8U8 | .pushConstU8U8U8 | .pushConstS16
  | .pushConstU24 | .pushConstU32 | .pushConstF | .native | .j | .jz | .call | .switch
  | .textLabelAssignString | .textLabelAssignInt | .textLabelAppendString
  | .textLabelAppendInt => true
  | _ => false

/-- Whether lifting knows an opcode. -/
def isCovered (opcode : Opcode) : Bool :=
  opcode.isTabled || opcode.hasOwnOperations

example : (all.filter fun opcode => !opcode.isCovered) =
    #[.localStoreS, .staticLoadS, .localLoadS, .globalStoreSr, .globalStoreS, .staticStoreS,
      .localStoreSr, .storeNS, .staticStoreSr, .storeNSr, .globalLoadS, .loadNS] := by
  decide +kernel

end Opcode

namespace Instruction

/-! ## Instructions without operations -/

/-- An instruction that can be lifted: lifting knows its opcode, and the native table has the entry
that a native call asks for. -/
structure Liftable (natives : Array UInt64) (instruction : Instruction) : Prop where
  covered : instruction.opcode.isCovered = true
  inTable : ∀ counts index, instruction.operands = .native counts index →
    index.toNat < natives.size

/-- What lifting an instruction can come to. -/
inductive Outcome (natives : Array UInt64) (instruction : Instruction) :
    Except Error (List Operation) → Prop
  | lifted {operations : List Operation} :
      instruction.Liftable natives → Outcome natives instruction (.ok operations)
  | notImplemented :
      instruction.opcode.isCovered = false →
      Outcome natives instruction (.error (.notImplemented instruction.opcode instruction.ip))
  | nativeIndexOutOfRange {counts : UInt8} {index : UInt16} :
      instruction.opcode = .native → instruction.operands = .native counts index →
      natives.size ≤ index.toNat →
      Outcome natives instruction (.error (.nativeIndexOutOfRange index.toNat natives.size))

section Outcome

variable {natives : Array UInt64} {instruction : Instruction}

theorem liftable_of_isTabled
    (wellFormed : instruction.WellFormed)
    (tabled : instruction.opcode.isTabled = true) :
    instruction.Liftable natives := by
  obtain ⟨ip, opcode, operands⟩ := instruction
  refine ⟨by simp [Opcode.isCovered, tabled], ?_⟩
  rintro counts index rfl
  have layout : .native = opcode.layout := wellFormed.layout
  have notNative : opcode.isTabled = true → opcode.layout ≠ .native := by
    cases opcode <;> decide
  exact absurd layout.symm (notNative tabled)

theorem outcome_operandOperations?
    (wellFormed : instruction.WellFormed)
    (notTabled : instruction.opcode.isTabled = false) :
    Outcome natives instruction (instruction.operandOperations? natives) := by
  obtain ⟨ip, opcode, operands⟩ := instruction
  have layout : operands.layout = opcode.layout := wellFormed.layout
  cases opcode
  case native =>
    cases operands with
    | native counts index =>
        simp only [operandOperations?]
        cases isHash : natives[index.toNat]? with
        | none => exact .nativeIndexOutOfRange rfl rfl (Array.getElem?_eq_none_iff.mp isHash)
        | some hash =>
            obtain ⟨inside, -⟩ := Array.getElem?_eq_some_iff.mp isHash
            refine .lifted ⟨rfl, ?_⟩
            rintro _ _ ⟨⟩
            exact inside
    | _ => cases layout
  case localStoreS | staticLoadS | localLoadS | globalStoreSr | globalStoreS | staticStoreS |
      localStoreSr | storeNS | staticStoreSr | storeNSr | globalLoadS | loadNS =>
    exact .notImplemented rfl
  case enter | leave | pushConstU8 | pushConstU8U8 | pushConstU8U8U8 | pushConstS16 |
      pushConstU24 | pushConstU32 | pushConstF | j | jz | call | switch |
      textLabelAssignString | textLabelAssignInt | textLabelAppendString | textLabelAppendInt =>
    cases operands <;> first
      | exact .lifted ⟨rfl, by rintro _ _ ⟨⟩⟩
      | cases layout
  all_goals cases notTabled

theorem outcome_operations
    (wellFormed : instruction.WellFormed) :
    Outcome natives instruction (instruction.operations natives) := by
  have isRead := @operationsAt?_bytes natives instruction wellFormed
  have tabled := @liftable_of_isTabled natives instruction wellFormed
  unfold operationsAt? at isRead
  split at isRead
  · rename_i form isForm
    obtain ⟨immediate, -, isLifted⟩ := Option.map_eq_some_iff.mp isRead
    rw [← isLifted]
    exact .lifted (tabled (by simp [Opcode.isTabled, isForm]))
  rename_i noForm
  split at isRead
  · rename_i arith isArith
    obtain ⟨immediate, -, isLifted⟩ := Option.map_eq_some_iff.mp isRead
    rw [← isLifted]
    exact .lifted (tabled (by simp [Opcode.isTabled, isArith]))
  rename_i noArith
  split at isRead
  · rename_i value isInt
    rw [← Option.some.inj isRead]
    exact .lifted (tabled (by simp [Opcode.isTabled, isInt]))
  · rename_i value _ isFloat
    rw [← Option.some.inj isRead]
    exact .lifted (tabled (by simp [Opcode.isTabled, isFloat]))
  rename_i noInt noFloat
  split at isRead
  · rename_i compare isCompare
    obtain ⟨target, -, isLifted⟩ := Option.map_eq_some_iff.mp isRead
    rw [← isLifted]
    exact .lifted (tabled (by simp [Opcode.isTabled, isCompare]))
  rename_i noCompare
  split at isRead
  · rename_i operation isSimple
    rw [← Option.some.inj isRead]
    exact .lifted (tabled (by simp [Opcode.isTabled, isSimple]))
  rename_i notSimple
  rw [ownOperationsAt?_bytes wellFormed] at isRead
  rw [← Option.some.inj isRead]
  exact outcome_operandOperations? wellFormed
    (by simp [Opcode.isTabled, noForm, noArith, noInt, noFloat, noCompare, notSimple])

theorem exists_operations_eq_ok_iff
    (wellFormed : instruction.WellFormed) :
    (∃ operations, instruction.operations natives = .ok operations) ↔
      instruction.Liftable natives := by
  have outcome := @outcome_operations natives instruction wellFormed
  generalize instruction.operations natives = answer at outcome ⊢
  cases outcome with
  | lifted liftable => simp [liftable]
  | notImplemented notCovered =>
      have notLiftable : ¬instruction.Liftable natives := fun liftable => by
        cases notCovered.symm.trans liftable.covered
      simp [notLiftable]
  | nativeIndexOutOfRange _ isNative outside =>
      have notLiftable : ¬instruction.Liftable natives := fun liftable =>
        absurd (liftable.inTable _ _ isNative) (Nat.not_lt.mpr outside)
      simp [notLiftable]

end Outcome
end Instruction

/-! ## Code that cannot be lifted -/

open Instruction

/-- Why code cannot be lifted at an address: there is no instruction, or it has no operations. -/
inductive Fault (code : Bytes) (natives : Array UInt64) (ip : Nat) : Error → Prop
  | unreadable {error : Error} :
      Unreadable code ip error → Fault code natives ip error
  | notImplemented {instruction : Instruction} :
      decode code ip = .ok instruction → instruction.opcode.isCovered = false →
      Fault code natives ip (.notImplemented instruction.opcode ip)
  | nativeIndexOutOfRange {counts : UInt8} {index : UInt16} :
      decode code ip = .ok ⟨ip, .native, .native counts index⟩ → natives.size ≤ index.toNat →
      Fault code natives ip (.nativeIndexOutOfRange index.toNat natives.size)

namespace Fault

variable {code : Bytes} {natives : Array UInt64} {ip : Nat} {error : Error}

/-- Where no instruction can be read, that is the only fault. -/
theorem iff_of_decode_eq_error
    {found : Error}
    (inside : ip < code.size)
    (failed : decode code ip = .error found) :
    Fault code natives ip error ↔ found = error := by
  have isUnreadable := (decode_eq_error_iff inside).mp failed
  constructor
  · intro fault
    cases fault with
    | unreadable unreadable => exact isUnreadable.unique unreadable
    | notImplemented decoded _ | nativeIndexOutOfRange decoded _ =>
        cases failed.symm.trans decoded
  · rintro rfl
    exact .unreadable isUnreadable

/-- Where an instruction can be read, it is a fault that it has no operations. -/
theorem iff_of_decode_eq_ok
    {instruction : Instruction}
    (decoded : decode code ip = .ok instruction) :
    Fault code natives ip error ↔ instruction.operations natives = .error error := by
  obtain ⟨rfl, wellFormed, -, -⟩ := of_decode decoded
  have outcome := @outcome_operations natives instruction wellFormed
  generalize instruction.operations natives = answer at outcome ⊢
  constructor
  · intro fault
    cases fault with
    | unreadable unreadable => exact absurd decoded (unreadable.not_decode instruction)
    | notImplemented alsoDecoded notCovered =>
        cases decoded.symm.trans alsoDecoded
        cases outcome with
        | lifted liftable => cases notCovered.symm.trans liftable.covered
        | notImplemented _ => rfl
        | nativeIndexOutOfRange isNative _ _ =>
            rw [isNative] at notCovered
            cases notCovered
    | nativeIndexOutOfRange alsoDecoded outside =>
        obtain ⟨_, _, _⟩ := instruction
        cases decoded.symm.trans alsoDecoded
        cases outcome with
        | lifted liftable =>
            exact absurd (liftable.inTable _ _ rfl) (Nat.not_lt.mpr outside)
        | notImplemented notCovered => cases notCovered
        | nativeIndexOutOfRange _ sameOperands _ =>
            cases sameOperands
            rfl
  · rintro rfl
    cases outcome with
    | notImplemented notCovered => exact .notImplemented decoded notCovered
    | nativeIndexOutOfRange isNative hasIndex outside =>
        obtain ⟨_, _, _⟩ := instruction
        cases isNative
        cases hasIndex
        exact .nativeIndexOutOfRange decoded outside

theorem inside (fault : Fault code natives ip error) : ip < code.size := by
  cases fault with
  | unreadable unreadable =>
      cases unreadable with
      | invalidOpcode isByte _ | truncated isByte _ _ =>
          exact (Array.getElem?_eq_some_iff.mp isByte).1
  | notImplemented decoded _ | nativeIndexOutOfRange decoded _ =>
      exact (Array.getElem?_eq_some_iff.mp (length?_of_decode decoded).1).1

end Fault

section Lift

variable {code : Bytes} {natives : Array UInt64}

theorem exists_lift_iff_liftable :
    (∃ lifted, lift code natives = .ok lifted) ↔
      (walk code).failure = none ∧
        ∀ instruction ∈ (walk code).instructions.toList, instruction.Liftable natives := by
  obtain ⟨-, wellFormed, -, -⟩ := Walk.divides code
  rw [exists_lift_eq_ok_iff]
  exact and_congr_right fun _ => forall₂_congr fun instruction member =>
    exists_operations_eq_ok_iff (wellFormed instruction member)

/-- Lifting fails with the fault behind the first instructions that can be lifted. -/
theorem lift_eq_error_iff_fault
    {error : Error} :
    lift code natives = .error error ↔
      ∃ before, before <+: (walk code).instructions.toList ∧
        (∀ earlier ∈ before, earlier.Liftable natives) ∧
        Fault code natives (codeOf before).size error := by
  obtain ⟨consecutive, wellFormed, -, ends⟩ := Walk.divides code
  have isLiftable : ∀ instruction ∈ (walk code).instructions.toList,
      (∃ operations, instruction.operations natives = .ok operations) ↔
        instruction.Liftable natives :=
    fun instruction member => exists_operations_eq_ok_iff (wellFormed instruction member)
  -- The place behind the first instructions is the address of the next one.
  have atNext : ∀ before instruction after,
      (walk code).instructions.toList = before ++ instruction :: after →
      decode code (codeOf before).size = .ok instruction := by
    intro before instruction after divided
    have decoded := @Walk.decode_of_mem code instruction (by simp [divided])
    rw [divided] at consecutive
    obtain ⟨-, place, -⟩ := (consecutive_append _ _ _).mp consecutive
    rwa [place, Nat.zero_add] at decoded
  rw [lift_eq_error_iff]
  constructor
  · rintro (⟨before, instruction, after, divided, earlier, failed⟩ | ⟨all, failure⟩)
    · refine ⟨before, ⟨instruction :: after, divided.symm⟩, ?_, ?_⟩
      · intro other member
        exact (isLiftable other (by simp [divided, member])).mp (earlier other member)
      · exact (Fault.iff_of_decode_eq_ok (atNext before instruction after divided)).mpr failed
    · rw [failure] at ends
      obtain ⟨inside, failed⟩ := ends
      refine ⟨_, List.prefix_rfl, ?_, (Fault.iff_of_decode_eq_error inside failed).mpr rfl⟩
      exact fun instruction member => (isLiftable instruction member).mp (all instruction member)
  · rintro ⟨before, ⟨rest, divided⟩, earlier, fault⟩
    have lifted : ∀ instruction ∈ before,
        ∃ operations, instruction.operations natives = .ok operations := by
      intro instruction member
      exact (isLiftable instruction (by simp [← divided, member])).mpr (earlier instruction member)
    cases rest with
    | cons instruction after =>
        have decoded := atNext before instruction after divided.symm
        exact .inl ⟨before, instruction, after, divided.symm, lifted,
          (Fault.iff_of_decode_eq_ok decoded).mp fault⟩
    | nil =>
        rw [List.append_nil] at divided
        subst divided
        refine .inr ⟨lifted, ?_⟩
        cases failure : (walk code).failure with
        | none =>
            rw [failure] at ends
            exact absurd fault.inside (Nat.not_lt.mpr (Nat.le_of_eq ends.symm))
        | some found =>
            rw [failure] at ends
            obtain ⟨inside, failed⟩ := ends
            exact congrArg some ((Fault.iff_of_decode_eq_error inside failed).mp fault)

end Lift

/-- Every code whose addresses have 32 bits is lifted unless it has a fault, and the first one is
the error. -/
theorem lift_eq_ok_or_first_fault
    {code : Bytes}
    (small : code.size < 2 ^ 32)
    (natives : Array UInt64) :
    ((∃ lifted, lift code natives = .ok lifted) ↔
        (walk code).failure = none ∧
          ∀ instruction ∈ (walk code).instructions.toList, instruction.Liftable natives) ∧
      (∀ error, lift code natives = .error error ↔
        ∃ before, before <+: (walk code).instructions.toList ∧
          (∀ earlier ∈ before, earlier.Liftable natives) ∧
          Fault code natives (codeOf before).size error) ∧
      ∀ instruction ∈ (walk code).instructions.toList,
        instruction.stop < 2 ^ 32 ∧
          operationsAt? natives instruction.ip instruction.opcode
              (code.extract instruction.ip instruction.stop) =
            some (instruction.operations natives) := by
  refine ⟨exists_lift_iff_liftable, fun error => lift_eq_error_iff_fault, ?_⟩
  intro instruction member
  obtain ⟨-, wellFormed, inside, isPart⟩ := of_decode (Walk.decode_of_mem member)
  refine ⟨Nat.lt_of_le_of_lt inside small, ?_⟩
  rw [isPart]
  exact operationsAt?_bytes wellFormed

/-- A native call behind a no-operation, and a byte that is no opcode. -/
def calledNative : Bytes :=
  #[Opcode.nop.toByte, Opcode.native.toByte, 0x04, 0x00, 0x05, 0xFF]

/-- A native call beyond the native table is an error before the byte behind it is. -/
theorem lift_eq_ok_or_first_fault_calledNative :
    calledNative.size < 2 ^ 32 ∧
      lift calledNative #[7] = .error (.nativeIndexOutOfRange 5 1) := by
  have small : calledNative.size < 2 ^ 32 := by decide
  obtain ⟨-, fails, -⟩ := lift_eq_ok_or_first_fault small #[7]
  have decoded : decode calledNative 1 = .ok ⟨1, .native, .native 4 5⟩ := by decide +kernel
  refine ⟨small, (fails _).mpr ⟨[⟨0, .nop, .none⟩], by decide +kernel, ?_, ?_⟩⟩
  · exact List.forall_mem_singleton.mpr ⟨by decide, by rintro _ _ ⟨⟩⟩
  · exact .nativeIndexOutOfRange decoded (by decide)

end ScriptBytecode
