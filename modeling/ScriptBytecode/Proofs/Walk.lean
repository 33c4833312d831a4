import ScriptBytecode.Instruction.Basic
import ScriptBytecode.Proofs.OperandBytes

/-!
# Walking over well-formed instructions

An instruction is well formed if its operands belong to its opcode and fit in their fields.  Such
an instruction is read back wherever its bytes stand in code, and a walk over the bytes of
consecutive well-formed instructions finds just these instructions.
-/

namespace ScriptBytecode

/-- The part of an array between two others. -/
theorem extract_append_middle
    {α : Type}
    (before middle after : Array α) :
    (before ++ middle ++ after).extract before.size (before.size + middle.size) = middle := by
  rw [Array.append_assoc, Array.extract_append, Array.extract_append]
  simp

namespace Instruction

variable {instructions : List Instruction} {instruction : Instruction}

/-- An instruction whose operands belong to its opcode and fit in their fields. -/
structure WellFormed (instruction : Instruction) : Prop where
  layout : instruction.operands.layout = instruction.opcode.layout
  fits : instruction.operands.Fits

theorem size_eq (instruction : Instruction) :
    instruction.size = 1 + instruction.operands.toBytes.length := by
  simp [size, bytes, Nat.add_comm]

theorem size_pos (instruction : Instruction) : 0 < instruction.size := by
  rw [size_eq]
  omega

theorem length_flatMap_caseBytes (cases : List (UInt32 × Int16)) :
    (cases.flatMap Operands.caseBytes).length = 6 * cases.length := by
  have caseLength : ∀ case ∈ cases, (Operands.caseBytes case).length = 6 := by
    intro case _
    rfl
  rw [List.length_flatMap, List.map_congr_left caseLength, List.map_const',
    List.sum_replicate_nat, Nat.mul_comm]

/-- The bytes of code around an instruction do not matter for those of the instruction. -/
theorem getElem?_append_bytes
    (before after : Bytes)
    (instruction : Instruction)
    (index : Nat)
    (inside : index < instruction.size) :
    (before ++ instruction.bytes ++ after)[before.size + index]? = instruction.bytes[index]? := by
  unfold size at inside
  rw [Array.getElem?_append_left (by simpa using inside),
    Array.getElem?_append_right (by omega), Nat.add_sub_cancel_left]

/-- The length of a well-formed instruction is found from its bytes. -/
theorem length?_eq_size
    (wellFormed : instruction.WellFormed)
    (byteAt? : Nat → Option UInt8)
    (sameBytes : ∀ index < instruction.size, byteAt? index = instruction.bytes[index]?) :
    length? instruction.opcode byteAt? = some instruction.size := by
  obtain ⟨ip, opcode, operands⟩ := instruction
  obtain ⟨layout, fits⟩ := wellFormed
  simp only at layout fits
  unfold length?
  simp only [← layout]
  cases operands with
  | enter parameters frameSize nameField =>
      have count := sameBytes 4 (by simp [size_eq, Operands.toBytes, Bytes.ofUInt16]; omega)
      simp only [Operands.Fits] at fits
      have bound : nameField.length % 256 = nameField.length := Nat.mod_eq_of_lt fits
      simp [count, bytes, size_eq, Operands.layout, Operands.toBytes, Bytes.ofUInt16, bound]
      omega
  | switch cases =>
      have count := sameBytes 1 (by simp [size_eq, Operands.toBytes])
      simp only [Operands.Fits] at fits
      have bound : cases.length % 256 = cases.length := Nat.mod_eq_of_lt fits
      simp [count, bytes, size_eq, Operands.layout, Operands.toBytes, bound,
        length_flatMap_caseBytes, -List.length_flatMap]
      omega
  | _ => rfl

/-- A well-formed instruction is read where its bytes stand in code. -/
theorem decode_append
    (wellFormed : instruction.WellFormed)
    (before after : Bytes)
    (place : before.size = instruction.ip) :
    decode (before ++ instruction.bytes ++ after) instruction.ip = .ok instruction := by
  have opcodeByte : (before ++ instruction.bytes ++ after)[instruction.ip]? =
      some instruction.opcode.toByte := by
    have first := getElem?_append_bytes before after instruction 0 instruction.size_pos
    rw [Nat.add_zero, place] at first
    rw [first]
    simp [bytes]
  have length := length?_eq_size wellFormed
    (fun index => (before ++ instruction.bytes ++ after)[instruction.ip + index]?)
    (fun index inside => by
      rw [← place]
      exact getElem?_append_bytes before after instruction index inside)
  have operandBytes : ((before ++ instruction.bytes ++ after).extract (instruction.ip + 1)
      (instruction.ip + instruction.size)).toList = instruction.operands.toBytes := by
    have divided : before ++ instruction.bytes ++ after =
        before.push instruction.opcode.toByte ++ instruction.operands.toBytes.toArray ++ after := by
      apply Array.toList_inj.mp
      simp [bytes]
    have middle := extract_append_middle (before.push instruction.opcode.toByte)
      instruction.operands.toBytes.toArray after
    have start : (before.push instruction.opcode.toByte).size = instruction.ip + 1 := by
      rw [Array.size_push, place]
    rw [start, List.size_toArray] at middle
    rw [divided, size_eq, ← Nat.add_assoc, middle]
  unfold decode
  simp only [opcodeByte, Opcode.ofByte?_toByte, length, operandBytes, ← wellFormed.layout,
    Operands.ofBytes?_toBytes wellFormed.fits]

/-- The code made of the bytes of instructions. -/
def codeOf : List Instruction → Bytes
  | [] => #[]
  | instruction :: rest => instruction.bytes ++ codeOf rest

@[simp] theorem codeOf_append (left right : List Instruction) :
    codeOf (left ++ right) = codeOf left ++ codeOf right := by
  induction left with
  | nil => simp [codeOf]
  | cons instruction rest ih =>
      simp only [List.cons_append, codeOf, ih, Array.append_assoc]

/-- Instructions at addresses that follow each other from a given one on. -/
def Consecutive : (start : Nat) → List Instruction → Prop
  | _, [] => True
  | start, instruction :: rest => instruction.ip = start ∧ Consecutive instruction.stop rest

theorem consecutive_append
    (start : Nat)
    (left right : List Instruction) :
    Consecutive start (left ++ right) ↔
      Consecutive start left ∧ Consecutive (start + (codeOf left).size) right := by
  induction left generalizing start with
  | nil => simp [Consecutive, codeOf]
  | cons instruction rest ih =>
      simp only [List.cons_append, Consecutive, ih, codeOf, Array.size_append,
        and_assoc]
      constructor
      · rintro ⟨rfl, consecutive⟩
        rw [stop, size, Nat.add_assoc] at consecutive
        exact ⟨rfl, by rwa [stop, size]⟩
      · rintro ⟨rfl, consecutive⟩
        rw [stop, size, Nat.add_assoc]
        exact ⟨rfl, by rwa [stop, size] at consecutive⟩

/-- An instruction among consecutive ones stands behind the code of those before it. -/
theorem Consecutive.divide
    {start : Nat}
    (consecutive : Consecutive start instructions)
    (member : instruction ∈ instructions) :
    ∃ before after, instructions = before ++ instruction :: after ∧
      start + (codeOf before).size = instruction.ip := by
  obtain ⟨before, after, rfl⟩ := List.append_of_mem member
  obtain ⟨_, place, _⟩ := (consecutive_append _ _ _).mp consecutive
  exact ⟨before, after, rfl, place.symm⟩

/-- An instruction among consecutive ones stands inside of their code. -/
theorem Consecutive.bounds
    {start : Nat}
    (consecutive : Consecutive start instructions)
    (member : instruction ∈ instructions) :
    start ≤ instruction.ip ∧ instruction.ip < start + (codeOf instructions).size := by
  obtain ⟨before, after, rfl, place⟩ := consecutive.divide member
  have positive := instruction.size_pos
  unfold Instruction.size at positive
  rw [codeOf_append, codeOf, Array.size_append, Array.size_append]
  omega

/-- An instruction among consecutive well-formed ones is read at its address. -/
theorem decode_codeOf
    (wellFormed : ∀ instruction ∈ instructions, instruction.WellFormed)
    (consecutive : Consecutive 0 instructions)
    (member : instruction ∈ instructions) :
    decode (codeOf instructions) instruction.ip = .ok instruction := by
  obtain ⟨before, after, rfl, place⟩ := consecutive.divide member
  rw [codeOf_append, codeOf, ← Array.append_assoc]
  exact decode_append (wellFormed instruction member) _ _ (by omega)

/-- The bytes of an instruction among consecutive ones stand from its address on. -/
theorem getElem?_codeOf
    (consecutive : Consecutive 0 instructions)
    (member : instruction ∈ instructions)
    (index : Nat)
    (inside : index < instruction.size) :
    (codeOf instructions)[instruction.ip + index]? = instruction.bytes[index]? := by
  obtain ⟨before, after, rfl, place⟩ := consecutive.divide member
  rw [codeOf_append, codeOf, ← Array.append_assoc, ← place, Nat.zero_add]
  exact getElem?_append_bytes _ _ instruction index inside

end Instruction

open Instruction

/-- A walk goes through consecutive well-formed instructions up to the end of the code. -/
theorem Walk.walkFrom_codeOf
    (before : Bytes)
    (instructions : List Instruction)
    (wellFormed : ∀ instruction ∈ instructions, instruction.WellFormed)
    (consecutive : Consecutive before.size instructions)
    (steps : Nat)
    (enough : (codeOf instructions).size ≤ steps)
    (walked : Array Instruction) :
    walkFrom (before ++ codeOf instructions) steps before.size walked =
      ⟨walked ++ instructions, none⟩ := by
  induction instructions generalizing before steps walked with
  | nil =>
      cases steps with
      | zero => simp [walkFrom]
      | succ steps => simp [walkFrom, codeOf]
  | cons instruction rest ih =>
      obtain ⟨place, restConsecutive⟩ := consecutive
      have positive := instruction.size_pos
      unfold Instruction.size at positive
      simp only [codeOf, Array.size_append] at enough
      cases steps with
      | zero => omega
      | succ steps =>
          have inCode : before.size < (before ++ codeOf (instruction :: rest)).size := by
            simp only [codeOf, Array.size_append]
            omega
          have decoded := decode_append (wellFormed instruction List.mem_cons_self) before
            (codeOf rest) place.symm
          have restWalk := ih (before ++ instruction.bytes)
            (fun other member => wellFormed other (List.mem_cons_of_mem _ member))
            (by rwa [Array.size_append, ← place])
            steps (by omega) (walked.push instruction)
          have stop : instruction.stop = (before ++ instruction.bytes).size := by
            rw [Array.size_append, ← place, Instruction.stop, Instruction.size]
          rw [walkFrom, if_pos inCode]
          simp only [codeOf, ← Array.append_assoc]
          rw [← place, decoded]
          simp only [stop, restWalk]
          simp

/-- A walk over consecutive well-formed instructions finds just these. -/
theorem walk_codeOf
    {instructions : List Instruction}
    (wellFormed : ∀ instruction ∈ instructions, instruction.WellFormed)
    (consecutive : Consecutive 0 instructions) :
    walk (codeOf instructions) = ⟨instructions.toArray, none⟩ := by
  have walked := Walk.walkFrom_codeOf #[] instructions wellFormed consecutive
    (codeOf instructions).size (Nat.le_refl _) #[]
  simpa [walk] using walked

end ScriptBytecode
