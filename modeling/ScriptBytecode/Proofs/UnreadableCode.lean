import Mathlib.Data.List.Basic
import ScriptBytecode.Proofs.WalkedCode

/-!
# Code that cannot be read

An instruction is read wherever all of its bytes are in the code.  So there are two reasons only why
an address inside of the code cannot be read: its byte is no opcode, or the code ends too early.
-/

namespace ScriptBytecode

namespace Operands

variable {bytes : List UInt8}

/-- As many bytes as cases take are read as cases. -/
theorem exists_casesOfBytes?
    {count : Nat}
    (length : bytes.length = 6 * count) :
    ∃ cases, casesOfBytes? count bytes = some cases := by
  induction count generalizing bytes with
  | zero =>
      cases List.eq_nil_of_length_eq_zero length
      exact ⟨[], rfl⟩
  | succ count ih =>
      rcases bytes with _ | ⟨value0, _ | ⟨value1, _ | ⟨value2, _ | ⟨value3, _ |
        ⟨offset0, _ | ⟨offset1, rest⟩⟩⟩⟩⟩⟩
      case cons.cons.cons.cons.cons.cons =>
        have restLength : rest.length = 6 * count := by
          simp only [List.length_cons] at length
          omega
        obtain ⟨cases, read⟩ := ih restLength
        exact ⟨_, by rw [casesOfBytes?, read, Option.map_some]⟩
      all_goals
        simp only [List.length_cons, List.length_nil] at length
        omega

/-- Operands of the length that an opcode calls for are read. -/
theorem exists_ofBytes?
    {opcode : Opcode} {byte : UInt8}
    (length : Instruction.length? opcode (fun index => (byte :: bytes)[index]?) =
      some (bytes.length + 1)) :
    ∃ operands, ofBytes? opcode.layout bytes = some operands := by
  unfold Instruction.length? at length
  generalize opcode.layout = layout at length
  cases layout with
  | none =>
      cases List.eq_nil_of_length_eq_zero (Nat.succ.inj (Option.some.inj length)).symm
      exact ⟨_, rfl⟩
  | u8 =>
      obtain ⟨value, rfl⟩ := List.length_eq_one_iff.mp (Nat.succ.inj (Option.some.inj length)).symm
      exact ⟨_, rfl⟩
  | u8u8 | s16 | u16 | rel16 =>
      obtain ⟨first, second, rfl⟩ :=
        List.length_eq_two.mp (Nat.succ.inj (Option.some.inj length)).symm
      exact ⟨_, rfl⟩
  | u8u8u8 | u24 | native =>
      obtain ⟨first, second, third, rfl⟩ :=
        List.length_eq_three.mp (Nat.succ.inj (Option.some.inj length)).symm
      exact ⟨_, rfl⟩
  | u32 | f32 =>
      obtain ⟨first, rest, rfl⟩ :=
        List.exists_cons_of_length_eq_add_one (Nat.succ.inj (Option.some.inj length)).symm
      obtain ⟨second, third, fourth, rfl⟩ :=
        List.length_eq_three.mp (Nat.succ.inj (Nat.succ.inj (Option.some.inj length))).symm
      exact ⟨_, rfl⟩
  | enter =>
      obtain ⟨nameLength, isLength, total⟩ := Option.map_eq_some_iff.mp length
      rcases bytes with _ | ⟨parameters, _ | ⟨frame0, _ | ⟨frame1, _ | ⟨other, nameField⟩⟩⟩⟩
      case cons.cons.cons.cons =>
        cases isLength
        simp only [List.length_cons] at total
        exact ⟨_, if_pos (by omega)⟩
      all_goals cases isLength
  | switch =>
      obtain ⟨count, isCount, total⟩ := Option.map_eq_some_iff.mp length
      cases bytes with
      | nil => cases isCount
      | cons other rest =>
          cases isCount
          simp only [List.length_cons] at total
          have restLength : rest.length = 6 * count.toNat := by omega
          obtain ⟨cases, read⟩ := exists_casesOfBytes? restLength
          exact ⟨_, by rw [ofBytes?, read, Option.map_some]⟩

end Operands

namespace Instruction

/-- The length of an instruction depends on its own bytes only. -/
theorem length?_of_agree
    {opcode : Opcode} {byteAt? other : Nat → Option UInt8} {length : Nat}
    (isLength : length? opcode byteAt? = some length)
    (agree : ∀ index < length, other index = byteAt? index) :
    length? opcode other = some length := by
  unfold length? at isLength ⊢
  generalize opcode.layout = layout at isLength
  cases layout with
  | enter =>
      obtain ⟨nameLength, isNameLength, rfl⟩ := Option.map_eq_some_iff.mp isLength
      simp only [agree 4 (by omega), isNameLength, Option.map_some]
  | switch =>
      obtain ⟨count, isCount, rfl⟩ := Option.map_eq_some_iff.mp isLength
      simp only [agree 1 (by omega), isCount, Option.map_some]
  | _ => exact isLength

/-- Why no instruction can be read at an address of the code: the byte there is no opcode, or the
code ends before the instruction is complete. -/
inductive Unreadable (code : Bytes) (ip : Nat) : Error → Prop
  | invalidOpcode {byte : UInt8} :
      code[ip]? = some byte → Opcode.ofByte? byte = none →
      Unreadable code ip (.invalidOpcode byte ip)
  | truncated {byte : UInt8} {opcode : Opcode} :
      code[ip]? = some byte → Opcode.ofByte? byte = some opcode →
      (∀ length, length? opcode (fun index => code[ip + index]?) = some length →
        code.size < ip + length) →
      Unreadable code ip (.truncated opcode ip)

section Decode

variable {code : Bytes} {ip : Nat} {error : Error} {opcode : Opcode} {length : Nat}

theorem length?_pos
    {byteAt? : Nat → Option UInt8}
    (isLength : length? opcode byteAt? = some length) :
    0 < length := by
  unfold length? at isLength
  generalize opcode.layout = layout at isLength
  cases layout with
  | enter | switch =>
      obtain ⟨count, -, rfl⟩ := Option.map_eq_some_iff.mp isLength
      omega
  | _ =>
      cases isLength
      decide

/-- An instruction whose bytes are all in the code is read. -/
theorem exists_decode
    {byte : UInt8}
    (isByte : code[ip]? = some byte)
    (isOpcode : Opcode.ofByte? byte = some opcode)
    (isLength : length? opcode (fun index => code[ip + index]?) = some length)
    (inside : ip + length ≤ code.size) :
    ∃ operands, decode code ip = .ok ⟨ip, opcode, operands⟩ := by
  have positive := length?_pos isLength
  have size : (code.extract (ip + 1) (ip + length)).toList.length + 1 = length := by
    rw [Array.length_toList, Array.size_extract]
    omega
  have agree : ∀ index < length,
      (byte :: (code.extract (ip + 1) (ip + length)).toList)[index]? = code[ip + index]? := by
    intro index inInstruction
    cases index with
    | zero => exact isByte.symm
    | succ index =>
        rw [List.getElem?_cons_succ, Array.getElem?_toList, Array.getElem?_extract,
          if_pos (by omega), Nat.add_assoc, Nat.add_comm 1]
  obtain ⟨operands, isRead⟩ := Operands.exists_ofBytes?
    ((length?_of_agree isLength agree).trans (congrArg some size.symm))
  refine ⟨operands, ?_⟩
  simp only [decode, isByte, isOpcode, isLength, isRead]

/-- The length of an instruction that is read is that of its bytes. -/
theorem length?_of_decode
    {instruction : Instruction}
    (decoded : decode code ip = .ok instruction) :
    code[ip]? = some instruction.opcode.toByte ∧
      length? instruction.opcode (fun index => code[ip + index]?) = some instruction.size ∧
      ip + instruction.size ≤ code.size := by
  obtain ⟨rfl, wellFormed, inside, isPart⟩ := of_decode decoded
  have sameBytes : ∀ index < instruction.size,
      code[instruction.ip + index]? = instruction.bytes[index]? := by
    intro index inInstruction
    rw [← isPart, Array.getElem?_extract, if_pos]
    rw [Nat.min_eq_left inside, stop]
    omega
  refine ⟨?_, length?_eq_size wellFormed _ sameBytes, inside⟩
  simpa [bytes] using sameBytes 0 instruction.size_pos

theorem Unreadable.not_decode
    (unreadable : Unreadable code ip error)
    (instruction : Instruction) :
    decode code ip ≠ .ok instruction := by
  intro decoded
  obtain ⟨isFirst, isLength, inside⟩ := length?_of_decode decoded
  cases unreadable with
  | invalidOpcode isByte noOpcode =>
      cases isByte.symm.trans isFirst
      rw [Opcode.ofByte?_toByte] at noOpcode
      cases noOpcode
  | truncated isByte isOpcode tooLong =>
      cases isByte.symm.trans isFirst
      rw [Opcode.ofByte?_toByte] at isOpcode
      cases isOpcode
      exact absurd (tooLong _ isLength) (Nat.not_lt.mpr inside)

theorem Unreadable.unique
    {other : Error}
    (unreadable : Unreadable code ip error)
    (alsoUnreadable : Unreadable code ip other) :
    error = other := by
  cases unreadable with
  | invalidOpcode isByte noOpcode =>
      cases alsoUnreadable with
      | invalidOpcode alsoByte _ =>
          cases isByte.symm.trans alsoByte
          rfl
      | truncated alsoByte isOpcode _ =>
          cases isByte.symm.trans alsoByte
          cases noOpcode.symm.trans isOpcode
  | truncated isByte isOpcode _ =>
      cases alsoUnreadable with
      | invalidOpcode alsoByte noOpcode =>
          cases isByte.symm.trans alsoByte
          cases noOpcode.symm.trans isOpcode
      | truncated alsoByte alsoOpcode _ =>
          cases isByte.symm.trans alsoByte
          cases isOpcode.symm.trans alsoOpcode
          rfl

theorem unreadable_of_decode
    (inside : ip < code.size)
    (failed : decode code ip = .error error) :
    Unreadable code ip error := by
  have isByte := Array.getElem?_eq_getElem inside
  cases isOpcode : Opcode.ofByte? code[ip] with
  | none =>
      simp only [decode, isByte, isOpcode] at failed
      cases failed
      exact .invalidOpcode isByte isOpcode
  | some opcode =>
      -- Only the error of a short instruction is left, whichever of its bytes are missing.
      have isTruncated : error = .truncated opcode ip := by
        simp only [decode, isByte, isOpcode] at failed
        split at failed
        · cases failed
          rfl
        · split at failed
          · cases failed
            rfl
          · cases failed
      rw [isTruncated]
      refine .truncated isByte isOpcode fun length isLength => ?_
      by_contra complete
      obtain ⟨operands, decoded⟩ := exists_decode isByte isOpcode isLength (Nat.not_lt.mp complete)
      cases failed.symm.trans decoded

/-- Reading fails in the code with the reason why no instruction can be read. -/
theorem decode_eq_error_iff
    (inside : ip < code.size) :
    decode code ip = .error error ↔ Unreadable code ip error := by
  constructor
  · exact unreadable_of_decode inside
  · intro unreadable
    cases decoded : decode code ip with
    | ok instruction => exact absurd decoded (unreadable.not_decode instruction)
    | error other => rw [unreadable.unique (unreadable_of_decode inside decoded)]

end Decode

end Instruction
end ScriptBytecode
