import ScriptBytecode.Opcode.Family
import ScriptBytecode.Statement.Basic

/-!
# Constant pushes

The shortest instruction that pushes a given integer, and the instruction that pushes a given
single-precision number bit for bit.
-/

namespace ScriptBytecode
namespace Statement

/-- The opcodes that push a constant without operands. -/
def literalPushes : List Opcode :=
  [.pushConstM1, .pushConst0, .pushConst1, .pushConst2, .pushConst3, .pushConst4, .pushConst5,
    .pushConst6, .pushConst7, .pushConstFm1, .pushConstF0, .pushConstF1, .pushConstF2,
    .pushConstF3, .pushConstF4, .pushConstF5, .pushConstF6, .pushConstF7]

/-- Pushes an integer with the shortest instruction that does. -/
def pushInt (value : Int32) : Statement :=
  let int := value.toInt
  match literalPushes.find? fun opcode => opcode.intConstant? == some int with
  | some opcode => .plain opcode .none
  | none =>
    if 0 ≤ int ∧ int ≤ 0xFF then .plain .pushConstU8 (.u8 (UInt8.ofNat int.toNat))
    else if -0x8000 ≤ int ∧ int ≤ 0x7FFF then .plain .pushConstS16 (.s16 (Int16.ofInt int))
    else if 0 ≤ int ∧ int ≤ 0xFFFFFF then .plain .pushConstU24 (.u24 value.toUInt32)
    else .plain .pushConstU32 (.u32 value.toUInt32)

/-- Pushes a number: with a literal push if there is one for its very bits. -/
def pushFloat (value : Binary32) : Statement :=
  match literalPushes.find? fun opcode => opcode.floatConstant? == some value with
  | some opcode => .plain opcode .none
  | none => .plain .pushConstF (.f32 value)

end Statement
end ScriptBytecode
