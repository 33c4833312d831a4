import ScriptBytecode.Proofs.AssembledUnit
import ScriptBytecode.Proofs.RelinkedCode

/-!
# Assembled code

The code that a sound code unit is finished to consists of instructions that can be listed and that
fit in the pages where they stand, those that fill the ends of pages included.
-/

namespace ScriptBytecode

open Instruction Builder Listing

variable {natives : Array UInt64} {functions : Array FunctionSymbols} {operands : Operands}
    {placement : Placement}

/-- An instruction that can be listed and fits in the page where it stands. -/
structure Instruction.Settled (natives : Array UInt64) (instruction : Instruction) : Prop where
  listable : instruction.Listable natives
  stays : ¬Crosses instruction.ip instruction.bytes

theorem reservedBytes_instruction (instruction : Instruction) :
    reservedBytes instruction.bytes =
      if instruction.opcode.isControlFlow || instruction.opcode == .nop then 0 else 1 :=
  reservedBytes_fragment (.plain instruction.opcode instruction.operands)

/-! ## Fillers -/

theorem settled_nop (natives : Array UInt64) (ip : Nat) :
    (⟨ip, .nop, .none⟩ : Instruction).Settled natives := by
  refine ⟨⟨⟨rfl, trivial⟩, nofun, nofun⟩, ?_⟩
  have inPage := Nat.mod_lt ip Paged.pageLength_pos
  have free := reservedBytes_instruction ⟨ip, .nop, .none⟩
  have size : (⟨ip, .nop, .none⟩ : Instruction).bytes.size = 1 := rfl
  rw [Crosses, free.trans (if_pos rfl), size]
  dsimp only
  omega

theorem settled_jump
    (natives : Array UInt64)
    {ip : Nat}
    (offset : Int16)
    (enough : 3 < pageLength - ip % pageLength) :
    (⟨ip, .j, .rel16 offset⟩ : Instruction).Settled natives := by
  refine ⟨⟨⟨rfl, trivial⟩, nofun, nofun⟩, ?_⟩
  have size : (⟨ip, .j, .rel16 offset⟩ : Instruction).bytes.size = 3 := rfl
  have free := reservedBytes_instruction ⟨ip, .j, .rel16 offset⟩
  rw [Crosses, free.trans (if_pos rfl), size]
  dsimp only
  omega

theorem settled_nops (natives : Array UInt64) (start count : Nat) :
    ∀ instruction ∈ nops start count, instruction.Settled natives := by
  induction count generalizing start with
  | zero => simp [nops]
  | succ count ih =>
      rw [nops, List.forall_mem_cons]
      exact ⟨settled_nop natives start, ih (start + 1)⟩

theorem settled_gapInstructions (natives : Array UInt64) (codeSize : Nat) (bytes : Bytes) :
    ∀ instruction ∈ gapInstructions codeSize bytes, instruction.Settled natives := by
  unfold gapInstructions fillerInstructions
  split
  · split
    · rename_i enough
      rw [List.forall_mem_cons]
      exact ⟨settled_jump natives _ enough, settled_nops natives _ _⟩
    · exact settled_nops natives _ _
  · simp

/-! ## Placed statements -/

theorem opcode_instruction (functions : Array FunctionSymbols) (placement : Placement) :
    (placement.instruction functions).opcode = placement.statement.opcode := by
  rw [Placement.instruction]
  cases placement.statement <;> rfl

theorem eq_of_stored_eq
    {other : Operands}
    (isStored : operands.stored = other)
    (notShortened : other.layout ≠ .u24) :
    operands = other := by
  cases operands with
  | u24 value =>
      subst isStored
      exact absurd rfl notShortened
  | _ => exact isStored

/-- Operands that are neither a target nor shortened come from a plain statement. -/
theorem statement_eq_plain
    (isOperands : (placement.instruction functions).operands = operands)
    (notShortened : operands.layout ≠ .u24)
    (notJump : operands.layout ≠ .rel16)
    (notSwitch : operands.layout ≠ .switch) :
    placement.statement = .plain (placement.instruction functions).opcode operands := by
  obtain ⟨function, before, address, statement⟩ := placement
  cases statement with
  | plain opcode others =>
      rw [eq_of_stored_eq isOperands notShortened]
      rfl
  | jump opcode label =>
      subst isOperands
      exact absurd rfl notJump
  | call name =>
      subst isOperands
      exact absurd rfl notShortened
  | switch cases =>
      subst isOperands
      exact absurd rfl notSwitch

theorem settled_instruction
    (wellFormed : (placement.instruction functions).WellFormed)
    (listable : placement.statement.Listable natives)
    (placed : placement.address = addressFor placement.before placement.bytes) :
    (placement.instruction functions).Settled natives := by
  have short := Instruction.size_lt wellFormed.fits
  have sameSize : (placement.instruction functions).bytes.size = placement.bytes.size :=
    placement.size_instruction functions
  refine ⟨⟨wellFormed, ?_, ?_⟩, ?_⟩
  · intro parameters frameSize nameField isEnter
    have isStatement := statement_eq_plain isEnter nofun nofun nofun
    have layout := wellFormed.layout
    rw [isEnter] at layout
    rw [Opcode.eq_of_layout_enter layout.symm] at isStatement
    exact listable.name parameters frameSize nameField isStatement
  · intro counts index isNative
    have isStatement := statement_eq_plain isNative nofun nofun nofun
    have layout := wellFormed.layout
    rw [isNative] at layout
    rw [Opcode.eq_of_layout_native layout.symm] at isStatement
    exact listable.native counts index isStatement
  · have fits := addressFor_mod_add_le placement.before
      (show placement.bytes.size < instructionLimit by rwa [← sameSize])
    rw [Crosses, Placement.ip_instruction, sameSize, reservedBytes_instruction, opcode_instruction,
      ← reservedBytes_fragment, placed]
    exact Nat.not_lt.mpr fits

theorem settled_linked
    {start : Nat} {placements : List Placement}
    (laid : Placement.Laid start placements)
    (wellFormed : ∀ instruction ∈ Placement.linked functions placements, instruction.WellFormed)
    (listable : ∀ placement ∈ placements, placement.statement.Listable natives) :
    ∀ instruction ∈ Placement.linked functions placements, instruction.Settled natives := by
  induction placements generalizing start with
  | nil => simp [Placement.linked]
  | cons placement placements ih =>
      obtain ⟨rfl, placed, -, -, later⟩ := laid
      obtain ⟨listableHere, listableLater⟩ := List.forall_mem_cons.mp listable
      rw [Placement.linked, List.forall_mem_append, List.forall_mem_cons] at wellFormed ⊢
      exact ⟨settled_gapInstructions natives _ _,
        settled_instruction wellFormed.2.1 listableHere placed,
        ih later wellFormed.2.2 listableLater⟩

/-- A sound code unit is finished to instructions that can be listed and placed again. -/
theorem CodeUnit.Sound.exists_instructions
    {codeUnit : CodeUnit}
    (sound : codeUnit.Sound)
    {fuse : Bool} {code : UnitCode}
    (finished : codeUnit.finish fuse = .ok code) :
    code.natives = codeUnit.natives ∧
      ∃ instructions, code.pages = Paged.ofArray (codeOf instructions) ∧
        Consecutive 0 instructions ∧
        ∀ instruction ∈ instructions, instruction.Settled codeUnit.natives := by
  have satisfies : ∀ function ∈ codeUnit.finished.toList,
      function.Satisfies (Statement.Listable codeUnit.natives) :=
    fun function member => sound.satisfies.finished function (Array.mem_toList_iff.mp member)
  have placeable := PlacedBy.exists_calls satisfies fun statement ordinary =>
    ordinary.listable codeUnit.natives
  obtain ⟨calls, placed⟩ : ∃ calls,
      PlacedBy (Statement.Listable codeUnit.natives) (codeUnit.placedFunctions fuse) calls := by
    cases fuse with
    | false => exact placeable.1
    | true =>
        rw [CodeUnit.placedFunctions, if_pos rfl, Array.toList_map]
        exact placeable.2
  obtain ⟨steps, builder, linked, isFinished, isCalls, rfl⟩ :=
    CodeUnit.exists_finished finished placed
  refine ⟨rfl, Finished.instructions steps builder, ?_, isFinished.consecutive, ?_⟩
  · rw [← isFinished.linked]
    rfl
  · apply settled_linked isFinished.laid isFinished.wellFormed
    intro placement member
    have isStep := List.mem_map_of_mem (f := Prod.fst) (Placement.mem_of_mem_ofSteps member)
    rw [isCalls] at isStep
    exact (placed.satisfies _ isStep).2

end ScriptBytecode
