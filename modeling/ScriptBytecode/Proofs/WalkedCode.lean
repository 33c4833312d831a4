import ScriptBytecode.Proofs.Walk

/-!
# What a walk finds

An instruction that is read has the bytes of the code from its address on.  The instructions that a
walk finds without an error are therefore consecutive and well formed, and they make up the code.
-/

namespace ScriptBytecode

open Instruction

theorem Opcode.toByte_of_ofByte?
    {byte : UInt8} {opcode : Opcode}
    (found : ofByte? byte = some opcode) :
    opcode.toByte = byte := by
  have places : ∀ index : Fin all.size, all[index].toByte.toNat = index := by decide +kernel
  obtain ⟨inside, rfl⟩ := Array.getElem?_eq_some_iff.mp found
  exact UInt8.toNat_inj.mp (places ⟨byte.toNat, inside⟩)

/-- A part of an array is its first element and the part behind it. -/
theorem extract_eq_singleton_append
    {α : Type}
    (elements : Array α)
    {start stop : Nat}
    (inside : start < elements.size)
    (nonempty : start < stop) :
    elements.extract start stop = #[elements[start]] ++ elements.extract (start + 1) stop := by
  have first : #[elements[start]] = elements.extract start (start + 1) := by
    apply Array.ext
    · simp only [Array.size_extract, List.size_toArray, List.length_singleton]
      omega
    · intro index isFirst _
      have zero : index = 0 := by simpa using isFirst
      subst zero
      simp
  rw [first, Array.extract_append_extract, Nat.min_eq_left (Nat.le_succ start),
    Nat.max_eq_right nonempty]

namespace Instruction

/-- An instruction that is read is well formed, and its bytes are those of the code. -/
theorem of_decode
    {code : Bytes} {ip : Nat} {instruction : Instruction}
    (decoded : decode code ip = .ok instruction) :
    instruction.ip = ip ∧ instruction.WellFormed ∧ instruction.stop ≤ code.size ∧
      code.extract ip instruction.stop = instruction.bytes := by
  unfold decode at decoded
  split at decoded
  · cases decoded
  · rename_i byte isByte
    split at decoded
    · cases decoded
    · rename_i opcode isOpcode
      split at decoded
      · cases decoded
      · rename_i length _
        simp only at decoded
        split at decoded
        · cases decoded
        · rename_i operands isRead
          cases decoded
          obtain ⟨layout, sameBytes, fits⟩ := Operands.of_ofBytes? isRead
          obtain ⟨inCode, isFirst⟩ := Array.getElem?_eq_some_iff.mp isByte
          -- The operands are cut off at the end of the code, so they cannot reach beyond it.
          have size : operands.toBytes.length = min (ip + length) code.size - (ip + 1) := by
            rw [sameBytes, Array.length_toList, Array.size_extract]
          have stop : Instruction.stop ⟨ip, opcode, operands⟩ =
              ip + 1 + (min (ip + length) code.size - (ip + 1)) := by
            rw [Instruction.stop, size_eq, ← size, Nat.add_assoc]
          have operandBytes : code.extract (ip + 1) (Instruction.stop ⟨ip, opcode, operands⟩) =
              operands.toBytes.toArray := by
            rw [sameBytes, Array.toArray_toList, stop]
            apply Array.ext
            · simp only [Array.size_extract]
              omega
            · intro index _ _
              simp only [Array.getElem_extract]
          refine ⟨rfl, ⟨layout, fits⟩, by omega, ?_⟩
          rw [bytes, Opcode.toByte_of_ofByte? isOpcode,
            extract_eq_singleton_append code inCode (by omega), operandBytes, isFirst]
          simp

end Instruction

namespace Walk

/-- How a walk ends at an address: at the end of the code, or with the error of an instruction that
cannot be read there. -/
def EndsAt (code : Bytes) (stop : Nat) : (failure : Option Error) → Prop
  | none => stop = code.size
  | some error => stop < code.size ∧ decode code stop = .error error

/-- What a walk finds from an address on: consecutive well-formed instructions, which make up the
code up to where the walk ends. -/
theorem exists_found
    {code : Bytes} {steps ip : Nat}
    (walked : Array Instruction)
    (inCode : ip ≤ code.size)
    (enough : code.size ≤ ip + steps) :
    ∃ found : List Instruction,
      (walkFrom code steps ip walked).instructions = walked ++ found ∧ Consecutive ip found ∧
      (∀ instruction ∈ found, instruction.WellFormed) ∧
      codeOf found = code.extract ip (ip + (codeOf found).size) ∧
      EndsAt code (ip + (codeOf found).size) (walkFrom code steps ip walked).failure := by
  have nothing : ∀ ip, codeOf [] = code.extract ip (ip + (codeOf []).size) :=
    fun _ => (Array.extract_empty_of_stop_le_start (Nat.le_refl _)).symm
  induction steps generalizing ip walked with
  | zero =>
      have atEnd : ip = code.size := by omega
      exact ⟨[], by simp [walkFrom], trivial, by simp, nothing ip, atEnd⟩
  | succ steps ih =>
      rw [walkFrom]
      split
      · rename_i inside
        split
        · rename_i instruction decoded
          obtain ⟨rfl, wellFormed, stopInCode, isPart⟩ := of_decode decoded
          have positive := instruction.size_pos
          have stop : instruction.stop = instruction.ip + instruction.bytes.size := rfl
          obtain ⟨found, isFound, consecutive, allWellFormed, isRest, ends⟩ :=
            ih (walked.push instruction) stopInCode
              (by unfold Instruction.size at positive; omega)
          have size : instruction.ip + (codeOf (instruction :: found)).size =
              instruction.stop + (codeOf found).size := by
            rw [codeOf, Array.size_append, stop, Nat.add_assoc]
          refine ⟨instruction :: found, by simp [isFound], ⟨rfl, consecutive⟩, ?_, ?_, ?_⟩
          · exact List.forall_mem_cons.mpr ⟨wellFormed, allWellFormed⟩
          · rw [size, codeOf, ← isPart]
            conv => lhs; rw [isRest]
            rw [Array.extract_append_extract, Nat.min_eq_left (by omega),
              Nat.max_eq_right (by omega)]
          · rw [size]
            exact ends
        · rename_i error failed
          exact ⟨[], by simp, trivial, by simp, nothing ip, inside, failed⟩
      · have atEnd : ip = code.size := by omega
        exact ⟨[], by simp, trivial, by simp, nothing ip, atEnd⟩

/-- A walk divides the code into well-formed instructions up to where it ends. -/
theorem divides (code : Bytes) :
    Consecutive 0 (walk code).instructions.toList ∧
      (∀ instruction ∈ (walk code).instructions.toList, instruction.WellFormed) ∧
      codeOf (walk code).instructions.toList =
        code.extract 0 (codeOf (walk code).instructions.toList).size ∧
      EndsAt code (codeOf (walk code).instructions.toList).size (walk code).failure := by
  obtain ⟨found, isFound, consecutive, wellFormed, isCode, ends⟩ :=
    @exists_found code code.size 0 #[] (Nat.zero_le _) (by omega)
  have instructions : (walk code).instructions.toList = found := by
    rw [walk, isFound]
    simp
  rw [Nat.zero_add] at isCode ends
  rw [instructions]
  exact ⟨consecutive, wellFormed, isCode, ends⟩

theorem exists_unread (code : Bytes) :
    ∃ unread, code = codeOf (walk code).instructions.toList ++ unread := by
  obtain ⟨-, -, isCode, -⟩ := divides code
  refine ⟨code.extract (codeOf (walk code).instructions.toList).size code.size, ?_⟩
  conv => rhs; arg 1; rw [isCode]
  rw [Array.extract_append_extract, Nat.zero_min,
    Array.extract_eq_self_of_le (Nat.le_max_right _ _)]

/-- An instruction that a walk finds is the one that is read at its address. -/
theorem decode_of_mem
    {code : Bytes} {instruction : Instruction}
    (member : instruction ∈ (walk code).instructions.toList) :
    decode code instruction.ip = .ok instruction := by
  obtain ⟨consecutive, wellFormed, -, -⟩ := divides code
  obtain ⟨before, after, divided, place⟩ := consecutive.divide member
  obtain ⟨unread, isCode⟩ := exists_unread code
  rw [divided, codeOf_append, codeOf, ← Array.append_assoc, Array.append_assoc] at isCode
  rw [isCode]
  exact decode_append (wellFormed instruction member) _ _ (by omega)

end Walk

/-- A walk without an error divides the code into well-formed instructions. -/
theorem of_walk
    {code : Bytes} {instructions : Array Instruction}
    (isWalk : walk code = ⟨instructions, none⟩) :
    Consecutive 0 instructions.toList ∧
      (∀ instruction ∈ instructions.toList, instruction.WellFormed) ∧
      codeOf instructions.toList = code := by
  obtain ⟨consecutive, wellFormed, isCode, ends⟩ := Walk.divides code
  rw [isWalk] at consecutive wellFormed isCode ends
  refine ⟨consecutive, wellFormed, ?_⟩
  rw [show (codeOf instructions.toList).size = code.size from ends, Array.extract_size] at isCode
  exact isCode

end ScriptBytecode
