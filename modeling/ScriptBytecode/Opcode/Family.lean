import ScriptBytecode.Binary32.Basic
import ScriptBytecode.Opcode.Basic

/-!
# Families of opcodes

Many opcodes do the work of two plainer ones: an address push with a load or a store, an integer
comparison with a conditional jump, an immediate with an addition or a multiplication.  This
module relates such an opcode to its parts, and names the constants pushed by the literal pushes.
-/

namespace ScriptBytecode

/-- What an address pushed by an opcode refers to. -/
inductive AddressKind where
  | local
  | static
  | global
  | array
  /-- A pointer plus an immediate offset. -/
  | offset
deriving DecidableEq, Repr

/-- The name of an address kind. -/
def AddressKind.name : AddressKind → String
  | .local => "Local"
  | .static => "Static"
  | .global => "Global"
  | .array => "Array"
  | .offset => "Offset"

/-- What an address-pushing opcode does with the address. -/
inductive Access where
  | none
  | load
  | store
deriving DecidableEq, Repr

/-- The name of an access. -/
def Access.name : Access → String
  | .none => "None"
  | .load => "Load"
  | .store => "Store"

/-- An addressing opcode: the kind of address its immediate selects, and the access made to it. -/
structure AddressForm where
  kind : AddressKind
  access : Access
deriving DecidableEq, Repr

/-- Arithmetic that has immediate forms. -/
inductive ImmediateArith where
  | add
  | mul
deriving DecidableEq, Repr

/-- The name of an arithmetic operation. -/
def ImmediateArith.name : ImmediateArith → String
  | .add => "Add"
  | .mul => "Mul"

namespace Opcode

/-- The address form of an addressing opcode. -/
def addressForm? : Opcode → Option AddressForm
  | .localU8 | .localU16 => some ⟨.local, .none⟩
  | .localU8Load | .localU16Load => some ⟨.local, .load⟩
  | .localU8Store | .localU16Store => some ⟨.local, .store⟩
  | .staticU8 | .staticU16 | .staticU24 => some ⟨.static, .none⟩
  | .staticU8Load | .staticU16Load | .staticU24Load => some ⟨.static, .load⟩
  | .staticU8Store | .staticU16Store | .staticU24Store => some ⟨.static, .store⟩
  | .globalU16 | .globalU24 => some ⟨.global, .none⟩
  | .globalU16Load | .globalU24Load => some ⟨.global, .load⟩
  | .globalU16Store | .globalU24Store => some ⟨.global, .store⟩
  | .arrayU8 | .arrayU16 => some ⟨.array, .none⟩
  | .arrayU8Load | .arrayU16Load => some ⟨.array, .load⟩
  | .arrayU8Store | .arrayU16Store => some ⟨.array, .store⟩
  | .ioffsetU8 | .ioffsetS16 => some ⟨.offset, .none⟩
  | .ioffsetU8Load | .ioffsetS16Load => some ⟨.offset, .load⟩
  | .ioffsetU8Store | .ioffsetS16Store => some ⟨.offset, .store⟩
  | _ => Option.none

/-- The load and the store variant of an opcode that only pushes an address. -/
def accessVariants? : Opcode → Option (Opcode × Opcode)
  | .localU8 => some (.localU8Load, .localU8Store)
  | .localU16 => some (.localU16Load, .localU16Store)
  | .staticU8 => some (.staticU8Load, .staticU8Store)
  | .staticU16 => some (.staticU16Load, .staticU16Store)
  | .staticU24 => some (.staticU24Load, .staticU24Store)
  | .globalU16 => some (.globalU16Load, .globalU16Store)
  | .globalU24 => some (.globalU24Load, .globalU24Store)
  | .arrayU8 => some (.arrayU8Load, .arrayU8Store)
  | .arrayU16 => some (.arrayU16Load, .arrayU16Store)
  | .ioffsetU8 => some (.ioffsetU8Load, .ioffsetU8Store)
  | .ioffsetS16 => some (.ioffsetS16Load, .ioffsetS16Store)
  | _ => Option.none

/-- The variant of an address push that also makes the given access. -/
def withAccess? (opcode : Opcode) (access : Access) : Option Opcode :=
  opcode.accessVariants?.map fun (loading, storing) =>
    match access with
    | .none => opcode
    | .load => loading
    | .store => storing

/-- The jump that fuses an integer comparison with a jump on zero. -/
def compareJump? : Opcode → Option Opcode
  | .ieq => some .ieqJz
  | .ine => some .ineJz
  | .igt => some .igtJz
  | .ige => some .igeJz
  | .ilt => some .iltJz
  | .ile => some .ileJz
  | _ => none

/-- The integer comparison inside a fused jump. -/
def jumpCompare? : Opcode → Option Opcode
  | .ieqJz => some .ieq
  | .ineJz => some .ine
  | .igtJz => some .igt
  | .igeJz => some .ige
  | .iltJz => some .ilt
  | .ileJz => some .ile
  | _ => none

/-- The arithmetic that an opcode performs with its immediate. -/
def immediateArith? : Opcode → Option ImmediateArith
  | .iaddU8 | .iaddS16 => some .add
  | .imulU8 | .imulS16 => some .mul
  | _ => none

/-- The opcode that fuses an addition or a multiplication with an immediate of a layout. -/
def withImmediate? : Opcode → OperandLayout → Option Opcode
  | .iadd, .u8 => some .iaddU8
  | .imul, .u8 => some .imulU8
  | .iadd, .s16 => some .iaddS16
  | .imul, .s16 => some .imulS16
  | _, _ => none

/-- The integer that a literal push without operands pushes. -/
def intConstant? : Opcode → Option Int
  | .pushConstM1 => some (-1)
  | .pushConst0 => some 0
  | .pushConst1 => some 1
  | .pushConst2 => some 2
  | .pushConst3 => some 3
  | .pushConst4 => some 4
  | .pushConst5 => some 5
  | .pushConst6 => some 6
  | .pushConst7 => some 7
  | _ => none

/-- The number that a literal push without operands pushes: minus one, or zero up to seven. -/
def floatConstant? : Opcode → Option Binary32
  | .pushConstFm1 => some ⟨0xBF800000⟩
  | .pushConstF0 => some ⟨0x00000000⟩
  | .pushConstF1 => some ⟨0x3F800000⟩
  | .pushConstF2 => some ⟨0x40000000⟩
  | .pushConstF3 => some ⟨0x40400000⟩
  | .pushConstF4 => some ⟨0x40800000⟩
  | .pushConstF5 => some ⟨0x40A00000⟩
  | .pushConstF6 => some ⟨0x40C00000⟩
  | .pushConstF7 => some ⟨0x40E00000⟩
  | _ => none

end Opcode
end ScriptBytecode
