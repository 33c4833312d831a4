import ScriptBytecode.Proofs.ExactLinking
import ScriptBytecode.Proofs.ListedLines

/-!
# Linking listed instructions again

An instruction that is listed with names for its targets is linked to the operands it had, provided
that the names stand for the addresses they were made for.
-/

namespace ScriptBytecode
namespace Listing

open Instruction Statement Builder

/-- Names that stand for the addresses they were made for, as seen from an instruction of a
function. -/
structure NamesResolve (functions : Array FunctionSymbols) (function : String) (named : Bool)
    (names : AddressTable String) (instruction : Instruction) : Prop where
  labels : named = true → ∀ target ∈ instruction.targets,
    finishedLabel? functions function (labelName target) = some target
  starts : ∀ address name, names.get? address = some name →
    (functions.find? (·.name == name)).map (·.start) = some address

/-- An instruction whose targets are told from addresses outside the code: the code is so short
that an offset leading out of it does not wrap to an address in it. -/
structure Within (codeLength : Nat) (named : Bool) (instruction : Instruction) : Prop where
  small : codeLength + 2 ^ 15 ≤ 2 ^ 32
  stop_le : instruction.stop ≤ codeLength
  targets_le : named = true → ∀ target ∈ instruction.targets, target ≤ codeLength

theorem wrapAddress_eq
    {address : Int}
    (notBelow : -2 ^ 15 < address)
    (notAbove : address < 2 ^ 32)
    (inCode : wrapAddress address + 2 ^ 15 ≤ 2 ^ 32) :
    (wrapAddress address : Int) = address := by
  unfold wrapAddress at *
  omega

/-- A label is linked as the offset that leads to it. -/
theorem labelOperand_eq
    {functions : Array FunctionSymbols} {function label : String} {address offset target : Nat}
    {operand : Int16}
    (known : finishedLabel? functions function label = some target)
    (leads : (target : Int) = address + offset + 2 + operand.toInt) :
    labelOperand functions function address offset label = operand ∧
      (fixupOf function address ⟨offset, .relative, label⟩).Resolvable functions := by
  have difference : (target : Int) - ((address + offset : Nat) + 2) = operand.toInt := by omega
  have notBelow := operand.le_toInt
  have notAbove := operand.toInt_lt
  constructor
  · rw [labelOperand, labelOf, known, Option.getD_some, difference, Int16.ofInt_toInt]
  · refine ⟨_, (Fixup.operand_relative_iff rfl).mpr ⟨target, known, ?_, rfl⟩⟩
    simp only [fixupOf]
    omega

/-- A function name is linked as the address of the function. -/
theorem functionOperand_eq
    {functions : Array FunctionSymbols} {name : String} {value : UInt32}
    (known : (functions.find? (·.name == name)).map (·.start) = some value.toNat)
    (fits : value.toNat < 2 ^ 24)
    (function : String)
    (address offset : Nat) :
    functionOperand functions name = value ∧
      (fixupOf function address ⟨offset, .absolute, name⟩).Resolvable functions := by
  obtain ⟨symbols, found, isStart⟩ := Option.map_eq_some_iff.mp known
  constructor
  · rw [functionOperand, startOf, known, Option.getD_some, UInt32.ofNat_toNat]
  · refine ⟨_, (Fixup.operand_absolute_iff rfl).mpr ⟨symbols, found, ?_, rfl⟩⟩
    rw [isStart]
    exact Nat.le_of_lt_succ fits

section Relinked

variable {functions : Array FunctionSymbols} {function : String} {named : Bool}
  {names : AddressTable String} {codeLength ip : Nat}

theorem jump_relinked
    {opcode : Opcode} {offset : Int16}
    (isNamed : named = true)
    (within : Within codeLength named ⟨ip, opcode, .rel16 offset⟩)
    (resolve : NamesResolve functions function named names ⟨ip, opcode, .rel16 offset⟩) :
    labelOperand functions function ip 1 (labelName (jumpTarget ip offset)) = offset ∧
      (fixupOf function ip ⟨1, .relative, labelName (jumpTarget ip offset)⟩).Resolvable
        functions := by
  obtain ⟨small, stop_le, targets_le⟩ := within
  have isTarget : jumpTarget ip offset ∈ (⟨ip, opcode, .rel16 offset⟩ : Instruction).targets :=
    List.mem_singleton_self _
  have inCode := targets_le isNamed _ isTarget
  have notBelow := offset.le_toInt
  have notAbove := offset.toInt_lt
  simp only [Instruction.stop, Instruction.size_eq, Operands.toBytes, Bytes.ofUInt16,
    List.length_cons, List.length_nil] at stop_le
  apply labelOperand_eq (resolve.labels isNamed _ isTarget)
  rw [jumpTarget, wrapAddress_eq (by omega) (by omega) (by rw [jumpTarget] at inCode; omega)]
  omega

theorem case_relinked
    {cases : List (UInt32 × Int16)}
    (isNamed : named = true)
    (within : Within codeLength named ⟨ip, .switch, .switch cases⟩)
    (resolve : NamesResolve functions function named names ⟨ip, .switch, .switch cases⟩)
    {index : Nat} {value : UInt32} {offset : Int16}
    (found : cases[index]? = some (value, offset)) :
    labelOperand functions function ip (6 + 6 * index) (labelName (caseTarget ip index offset)) =
        offset ∧
      (fixupOf function ip
        ⟨6 + 6 * index, .relative, labelName (caseTarget ip index offset)⟩).Resolvable
        functions := by
  obtain ⟨small, stop_le, targets_le⟩ := within
  obtain ⟨inBounds, -⟩ := List.getElem?_eq_some_iff.mp found
  have isTarget : caseTarget ip index offset ∈
      (⟨ip, .switch, .switch cases⟩ : Instruction).targets := by
    simp only [Instruction.targets, List.mem_map]
    refine ⟨(index, value, offset, caseTarget ip index offset), ?_, rfl⟩
    rw [switchCases, List.mem_iff_getElem?]
    exact ⟨index, by rw [List.getElem?_mapIdx, found]; rfl⟩
  have inCode := targets_le isNamed _ isTarget
  have notBelow := offset.le_toInt
  have notAbove := offset.toInt_lt
  simp only [Instruction.stop, Instruction.size_eq, Operands.toBytes, List.length_cons,
    length_flatMap_caseBytes] at stop_le
  apply labelOperand_eq (resolve.labels isNamed _ isTarget)
  rw [caseTarget, wrapAddress_eq (by omega) (by omega) (by rw [caseTarget] at inCode; omega)]
  omega

/-- A listed statement is linked to the instruction that it lists. -/
theorem ListedAs.relinked
    {instruction : Instruction} {statement : Statement}
    (listed : ListedAs named names instruction statement)
    (wellFormed : instruction.WellFormed)
    (within : Within codeLength named instruction)
    (resolve : NamesResolve functions function named names instruction) :
    statement.resolved instruction.ip (labelOperand functions function instruction.ip)
        (functionOperand functions) = instruction ∧
      ∀ reference ∈ statement.fragment.references,
        (fixupOf function instruction.ip reference).Resolvable functions := by
  cases listed with
  | plain =>
      refine ⟨?_, by simp [fragment]⟩
      rw [resolved, Operands.stored_eq_self wellFormed.fits]
  | jump ip opcode offset isNamed =>
      obtain ⟨sameOperand, resolvable⟩ := jump_relinked isNamed within resolve
      refine ⟨by rw [resolved, sameOperand], ?_⟩
      simpa [fragment] using resolvable
  | call ip value name found =>
      obtain ⟨sameOperand, resolvable⟩ := functionOperand_eq
        (resolve.starts value.toNat name found) wellFormed.fits function ip 1
      refine ⟨by rw [resolved, sameOperand], ?_⟩
      simpa [fragment] using resolvable
  | switch ip cases isNamed =>
      refine ⟨?_, ?_⟩
      · rw [resolved]
        congr 2
        apply List.ext_getElem?
        intro index
        rw [getElem?_resolvedCases, List.getElem?_map, switchCases, List.getElem?_mapIdx]
        cases found : cases[index]? with
        | none => rfl
        | some case =>
            obtain ⟨value, offset⟩ := case
            simp only [Option.map_some, (case_relinked isNamed within resolve found).1]
      · intro reference member
        obtain ⟨index, isReference⟩ := List.mem_iff_getElem?.mp member
        simp only [fragment, List.getElem?_mapIdx, List.getElem?_map, switchCases] at isReference
        cases found : cases[index]? with
        | none =>
            rw [found] at isReference
            cases isReference
        | some case =>
            rw [found] at isReference
            cases isReference
            exact (case_relinked isNamed within resolve found).2

end Relinked

end Listing
end ScriptBytecode
