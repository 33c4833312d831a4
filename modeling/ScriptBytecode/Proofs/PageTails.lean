import ScriptBytecode.Proofs.Placement

/-!
# Page tails

An instruction that does not fit in what is left of a page is moved to the next one, and the tail
of the page is filled with instructions that lead over to it.
-/

namespace ScriptBytecode
namespace Builder

open Instruction

/-- An instruction does not fit in the page in which code of a given size ends. -/
def Crosses (codeSize : Nat) (bytes : Bytes) : Prop :=
  pageLength - reservedBytes bytes < codeSize % pageLength + bytes.size

instance (codeSize : Nat) (bytes : Bytes) : Decidable (Crosses codeSize bytes) :=
  inferInstanceAs (Decidable (_ < _))

theorem gap_eq (codeSize : Nat) (bytes : Bytes) :
    gap codeSize bytes =
      if Crosses codeSize bytes then filler (pageLength - codeSize % pageLength) else #[] :=
  rfl

@[simp] theorem size_filler (remaining : Nat) : (filler remaining).size = remaining := by
  unfold filler
  split
  · simp [Bytes.ofUInt16]
    omega
  · simp

/-- An instruction is placed at the end of the code or at the start of the next page. -/
theorem addressFor_eq (codeSize : Nat) (bytes : Bytes) :
    addressFor codeSize bytes =
      if Crosses codeSize bytes then (codeSize / pageLength + 1) * pageLength else codeSize := by
  unfold addressFor
  rw [gap_eq]
  split
  · rw [size_filler]
    unfold pageLength
    omega
  · simp

theorem le_addressFor (codeSize : Nat) (bytes : Bytes) : codeSize ≤ addressFor codeSize bytes :=
  Nat.le_add_right _ _

theorem reservedBytes_le_one (bytes : Bytes) : reservedBytes bytes ≤ 1 := by
  unfold reservedBytes
  split
  · split <;> omega
  · exact Nat.le_refl 1

/-- An instruction fits in the page it is placed in. -/
theorem addressFor_mod_add_le
    (codeSize : Nat)
    {bytes : Bytes}
    (notTooLong : bytes.size < instructionLimit) :
    addressFor codeSize bytes % pageLength + bytes.size ≤ pageLength - reservedBytes bytes := by
  have reserved := reservedBytes_le_one bytes
  rw [addressFor_eq]
  split
  · unfold instructionLimit at notTooLong
    unfold pageLength at *
    omega
  · rename_i fits
    unfold Crosses at fits
    omega

/-! ## The instructions of a tail -/

/-- No-ops from an address on. -/
def nops : (start count : Nat) → List Instruction
  | _, 0 => []
  | start, count + 1 => ⟨start, .nop, .none⟩ :: nops (start + 1) count

/-- The instructions of a filler at an address: a jump behind it if there is room for one, and
no-ops. -/
def fillerInstructions (start remaining : Nat) : List Instruction :=
  if 3 < remaining then
    ⟨start, .j, .rel16 (UInt16.ofNat (remaining - 3)).toInt16⟩ :: nops (start + 3) (remaining - 3)
  else nops start remaining

/-- The instructions between code of a given size and the next instruction. -/
def gapInstructions (codeSize : Nat) (bytes : Bytes) : List Instruction :=
  if Crosses codeSize bytes then fillerInstructions codeSize (pageLength - codeSize % pageLength)
  else []

theorem codeOf_nops (start count : Nat) :
    codeOf (nops start count) = Array.replicate count Opcode.nop.toByte := by
  induction count generalizing start with
  | zero => rfl
  | succ count ih =>
      rw [nops, codeOf, ih, Array.replicate_succ']
      rfl

theorem nops_wellFormed (start count : Nat) :
    ∀ instruction ∈ nops start count, instruction.WellFormed := by
  induction count generalizing start with
  | zero => simp [nops]
  | succ count ih =>
      intro instruction member
      rcases List.mem_cons.mp member with rfl | later
      · exact ⟨rfl, trivial⟩
      · exact ih (start + 1) instruction later

theorem consecutive_nops (start count : Nat) : Consecutive start (nops start count) := by
  induction count generalizing start with
  | zero => trivial
  | succ count ih => exact ⟨rfl, ih (start + 1)⟩

theorem codeOf_fillerInstructions (start remaining : Nat) :
    codeOf (fillerInstructions start remaining) = filler remaining := by
  unfold fillerInstructions filler
  split
  · rw [codeOf, codeOf_nops]
    rfl
  · rw [codeOf_nops]

theorem codeOf_gapInstructions (codeSize : Nat) (bytes : Bytes) :
    codeOf (gapInstructions codeSize bytes) = gap codeSize bytes := by
  unfold gapInstructions
  rw [gap_eq]
  split
  · exact codeOf_fillerInstructions _ _
  · rfl

theorem fillerInstructions_wellFormed (start remaining : Nat) :
    ∀ instruction ∈ fillerInstructions start remaining, instruction.WellFormed := by
  unfold fillerInstructions
  split
  · intro instruction member
    rcases List.mem_cons.mp member with rfl | later
    · exact ⟨rfl, trivial⟩
    · exact nops_wellFormed _ _ instruction later
  · exact nops_wellFormed _ _

theorem gapInstructions_wellFormed (codeSize : Nat) (bytes : Bytes) :
    ∀ instruction ∈ gapInstructions codeSize bytes, instruction.WellFormed := by
  unfold gapInstructions
  split
  · exact fillerInstructions_wellFormed _ _
  · simp

theorem consecutive_fillerInstructions (start remaining : Nat) :
    Consecutive start (fillerInstructions start remaining) := by
  unfold fillerInstructions
  split
  · exact ⟨rfl, consecutive_nops _ _⟩
  · exact consecutive_nops _ _

theorem consecutive_gapInstructions (codeSize : Nat) (bytes : Bytes) :
    Consecutive codeSize (gapInstructions codeSize bytes) := by
  unfold gapInstructions
  split
  · exact consecutive_fillerInstructions _ _
  · trivial

end Builder
end ScriptBytecode
