import Mathlib.Algebra.Ring.Nat
import ScriptBytecode.Proofs.UnreadableCode

/-!
# Code divided by a walk

A walk reads on as long as it can, and stops by itself.  It divides the code into the instructions
it has read and a rest, which is empty exactly if the walk ends without an error.  What is read at
an address is up to the bytes of the instruction there, whatever stands before or behind it.
-/

namespace ScriptBytecode

open Instruction

namespace Instruction

/-- An instruction that is read at an address is read there among any other bytes. -/
theorem decode_among
    {code : Bytes} {ip : Nat} {instruction : Instruction}
    (decoded : decode code ip = .ok instruction)
    (before after : Bytes)
    (place : before.size = ip) :
    decode (before ++ code.extract ip instruction.stop ++ after) ip = .ok instruction := by
  obtain ⟨rfl, wellFormed, -, isPart⟩ := of_decode decoded
  rw [isPart]
  exact decode_append wellFormed before after place

end Instruction

namespace Walk

/-- A reading of code from an address on, with no bound on its steps: it goes on behind every
instruction that can be read, and ends behind the code or at the first error. -/
inductive Run (code : Bytes) : (ip : Nat) → List Instruction → (failure : Option Error) → Prop
  | finished {ip : Nat} : code.size ≤ ip → Run code ip [] none
  | failed {ip : Nat} {error : Error} :
      ip < code.size → decode code ip = .error error → Run code ip [] (some error)
  | step {ip : Nat} {instruction : Instruction} {rest : List Instruction} {failure : Option Error} :
      ip < code.size → decode code ip = .ok instruction → Run code instruction.stop rest failure →
      Run code ip (instruction :: rest) failure

/-- Consecutive instructions that are read at their addresses make up a run to where they end. -/
theorem run_of_consecutive
    {code : Bytes} {ip : Nat} {instructions : List Instruction} {failure : Option Error}
    (consecutive : Consecutive ip instructions)
    (read : ∀ instruction ∈ instructions, decode code instruction.ip = .ok instruction)
    (ends : EndsAt code (ip + (codeOf instructions).size) failure) :
    Run code ip instructions failure := by
  induction instructions generalizing ip with
  | nil =>
      cases failure with
      | none => exact .finished (Nat.le_of_eq (Eq.symm ends))
      | some error => exact .failed ends.1 ends.2
  | cons instruction rest ih =>
      obtain ⟨rfl, restConsecutive⟩ := consecutive
      obtain ⟨readHere, readLater⟩ := List.forall_mem_cons.mp read
      have positive := instruction.size_pos
      obtain ⟨-, -, inside, -⟩ := of_decode readHere
      rw [codeOf, Array.size_append, ← Nat.add_assoc] at ends
      have later := ih restConsecutive readLater ends
      exact .step (Nat.lt_of_lt_of_le (Nat.lt_add_of_pos_right positive) inside) readHere later

section Found

variable (code : Bytes)

theorem toList_codeOf_isPrefix :
    (codeOf (walk code).instructions.toList).toList <+: code.toList := by
  obtain ⟨unread, isCode⟩ := exists_unread code
  refine ⟨unread.toList, ?_⟩
  rw [← Array.toList_append, ← isCode]

/-- The instructions of a walk make up the code if they are as long. -/
theorem codeOf_eq_iff :
    codeOf (walk code).instructions.toList = code ↔
      (codeOf (walk code).instructions.toList).size = code.size := by
  refine ⟨congrArg Array.size, fun sameSize => ?_⟩
  have sameList := (toList_codeOf_isPrefix code).eq_of_length sameSize
  exact Array.toList_inj.mp sameList

theorem failure_eq_none_iff :
    (walk code).failure = none ↔ codeOf (walk code).instructions.toList = code := by
  obtain ⟨-, -, -, ends⟩ := divides code
  rw [codeOf_eq_iff]
  cases failure : (walk code).failure with
  | none =>
      rw [failure] at ends
      exact iff_of_true rfl ends
  | some error =>
      rw [failure] at ends
      exact iff_of_false (by simp) (Nat.ne_of_lt ends.1)

/-- A walk fails for the reason why nothing can be read behind its instructions. -/
theorem failure_eq_some_iff (error : Error) :
    (walk code).failure = some error ↔
      codeOf (walk code).instructions.toList ≠ code ∧
        Unreadable code (codeOf (walk code).instructions.toList).size error := by
  obtain ⟨-, -, -, ends⟩ := divides code
  rw [ne_eq, ← failure_eq_none_iff]
  cases failure : (walk code).failure with
  | none => simp
  | some other =>
      rw [failure] at ends
      have unreadable := unreadable_of_decode ends.1 ends.2
      constructor
      · rintro ⟨⟩
        exact ⟨by simp, unreadable⟩
      · rintro ⟨-, alsoUnreadable⟩
        rw [unreadable.unique alsoUnreadable]

end Found

/-- Code that a walk divides into instructions and a rest. -/
structure Partitions (code : Bytes) (walk : Walk) : Prop where
  /-- The walk stops by itself. -/
  run : Run code 0 walk.instructions.toList walk.failure
  /-- The first instruction stands at the start, and every other one where the one before it
  stops. -/
  consecutive : Consecutive 0 walk.instructions.toList
  /-- All addresses have 32 bits. -/
  small : ∀ instruction ∈ walk.instructions.toList, instruction.stop < 2 ^ 32
  isPrefix : (codeOf walk.instructions.toList).toList <+: code.toList
  complete_iff : walk.failure = none ↔ codeOf walk.instructions.toList = code
  /-- The error of a walk is that of the address where its instructions end. -/
  failure_iff : ∀ error, walk.failure = some error ↔
    codeOf walk.instructions.toList ≠ code ∧
      Unreadable code (codeOf walk.instructions.toList).size error
  /-- An instruction is read by its own bytes, whatever stands before and behind it. -/
  ownBytes : ∀ ip instruction, decode code ip = .ok instruction →
    instruction.bytes = code.extract ip instruction.stop ∧
    ∀ before after : Bytes, before.size = ip →
      decode (before ++ code.extract ip instruction.stop ++ after) ip = .ok instruction

/-- A walk divides the code into the instructions before the first error and a rest. -/
theorem partitions_walk {code : Bytes} (small : code.size < 2 ^ 32) :
    Partitions code (walk code) := by
  obtain ⟨consecutive, -, -, ends⟩ := divides code
  have read := fun instruction member => @decode_of_mem code instruction member
  exact
    { run := run_of_consecutive consecutive read (by rwa [Nat.zero_add])
      consecutive
      small := fun instruction member =>
        Nat.lt_of_le_of_lt (of_decode (read instruction member)).2.2.1 small
      isPrefix := toList_codeOf_isPrefix code
      complete_iff := failure_eq_none_iff code
      failure_iff := failure_eq_some_iff code
      ownBytes := fun ip instruction decoded =>
        ⟨(of_decode decoded).2.2.2.symm, decode_among decoded⟩ }

/-- A no-operation, a switch without cases, and an entry that is cut off in its name. -/
def cutEntry : Bytes :=
  #[Opcode.nop.toByte, Opcode.switch.toByte, 0, Opcode.enter.toByte, 1, 4, 0, 3, 0x61]

theorem partitions_walk_cutEntry :
    cutEntry.size < 2 ^ 32 ∧ (walk cutEntry).failure = some (.truncated .enter 3) ∧
      (codeOf (walk cutEntry).instructions.toList).toList <+: cutEntry.toList ∧
      Unreadable cutEntry 3 (.truncated .enter 3) := by
  have small : cutEntry.size < 2 ^ 32 := by decide
  have partitions := partitions_walk small
  have failure : (walk cutEntry).failure = some (.truncated .enter 3) := by decide +kernel
  have stop : (codeOf (walk cutEntry).instructions.toList).size = 3 := by decide +kernel
  have unreadable := ((partitions.failure_iff _).mp failure).2
  rw [stop] at unreadable
  exact ⟨small, failure, partitions.isPrefix, unreadable⟩

end Walk
end ScriptBytecode
