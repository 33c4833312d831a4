import ScriptBytecode.Binary32.Shortest
import ScriptBytecode.Text.Hex

/-!
# Stack operations

Code is lifted to a list of stack operations, each with the address of the instruction it comes
from.  An instruction that does the work of several plainer ones becomes as many operations.
-/

namespace ScriptBytecode

/-- An operation of the stack machine.  Addresses in the code are absolute. -/
inductive Operation where
  | nop
  | endOfScript
  | iadd
  | isub
  | imul
  | idiv
  | imod
  | inot
  | ineg
  | iequal
  | inotEqual
  | igreaterThan
  | igreaterOrEqual
  | ilessThan
  | ilessOrEqual
  | iand
  | ior
  | ixor
  | fadd
  | fsub
  | fmul
  | fdiv
  | fmod
  | fneg
  | fequal
  | fnotEqual
  | fgreaterThan
  | fgreaterOrEqual
  | flessThan
  | flessOrEqual
  | vadd
  | vsub
  | vmul
  | vdiv
  | vneg
  | intToFloat
  | floatToInt
  | floatToVector
  | pushStringFromStringTable
  | stringHash
  | dup
  | drop
  | load
  | store
  | storeRev
  | loadN
  | storeN
  | callIndirect
  | catchError
  | throw
  | textLabelCopy
  | pushInt (value : Int)
  | pushFloat (value : Binary32)
  | localRef (index : Nat)
  | staticRef (index : Nat)
  | globalRef (index : Nat)
  /-- The address of an array item of the given size. -/
  | arrayItemRef (itemSize : Nat)
  | nativeCall (parameters returns : UInt8) (hash : UInt64)
  /-- The frame size does not count the two slots for bookkeeping. -/
  | enter (parameters : UInt8) (frameSize : Int) (name : Option String)
  | leave (parameters returns : UInt8)
  | jump (target : Nat)
  | jumpIfZero (target : Nat)
  | call (target : Nat)
  /-- The value and the target of every case. -/
  | switch (cases : List (Int × Nat))
  | textLabelAssignString (size : UInt8)
  | textLabelAssignInt (size : UInt8)
  | textLabelAppendString (size : UInt8)
  | textLabelAppendInt (size : UInt8)
deriving DecidableEq, Repr

namespace Operation

/-- Text of an operation. -/
def text : Operation → String
  | .nop => "Nop"
  | .endOfScript => "EndOfScript"
  | .iadd => "IAdd"
  | .isub => "ISub"
  | .imul => "IMul"
  | .idiv => "IDiv"
  | .imod => "IMod"
  | .inot => "INot"
  | .ineg => "INeg"
  | .iequal => "IEqual"
  | .inotEqual => "INotEqual"
  | .igreaterThan => "IGreaterThan"
  | .igreaterOrEqual => "IGreaterOrEqual"
  | .ilessThan => "ILessThan"
  | .ilessOrEqual => "ILessOrEqual"
  | .iand => "IAnd"
  | .ior => "IOr"
  | .ixor => "IXor"
  | .fadd => "FAdd"
  | .fsub => "FSub"
  | .fmul => "FMul"
  | .fdiv => "FDiv"
  | .fmod => "FMod"
  | .fneg => "FNeg"
  | .fequal => "FEqual"
  | .fnotEqual => "FNotEqual"
  | .fgreaterThan => "FGreaterThan"
  | .fgreaterOrEqual => "FGreaterOrEqual"
  | .flessThan => "FLessThan"
  | .flessOrEqual => "FLessOrEqual"
  | .vadd => "VAdd"
  | .vsub => "VSub"
  | .vmul => "VMul"
  | .vdiv => "VDiv"
  | .vneg => "VNeg"
  | .intToFloat => "IntToFloat"
  | .floatToInt => "FloatToInt"
  | .floatToVector => "FloatToVector"
  | .pushStringFromStringTable => "PushStringFromStringTable"
  | .stringHash => "StringHash"
  | .dup => "Dup"
  | .drop => "Drop"
  | .load => "Load"
  | .store => "Store"
  | .storeRev => "StoreRev"
  | .loadN => "LoadN"
  | .storeN => "StoreN"
  | .callIndirect => "CallIndirect"
  | .catchError => "Catch"
  | .throw => "Throw"
  | .textLabelCopy => "TextLabelCopy"
  | .pushInt value => s!"PushInt {value}"
  | .pushFloat value => s!"PushFloat {value.text}"
  | .localRef index => s!"LocalRef {index}"
  | .staticRef index => s!"StaticRef {index}"
  | .globalRef index => s!"GlobalRef {index}"
  | .arrayItemRef itemSize => s!"ArrayItemRef {itemSize}"
  | .nativeCall parameters returns hash =>
    s!"NativeCall {parameters}, {returns}, 0x{Text.hex 16 hash.toNat}"
  | .enter parameters frameSize none => s!"Enter {parameters}, {frameSize}"
  | .enter parameters frameSize (some name) => s!"Enter {parameters}, {frameSize}, \"{name}\""
  | .leave parameters returns => s!"Leave {parameters}, {returns}"
  | .jump target => s!"Jump 0x{Text.address target}"
  | .jumpIfZero target => s!"JumpIfZero 0x{Text.address target}"
  | .call target => s!"Call 0x{Text.address target}"
  | .switch cases =>
    let shown := cases.map fun (value, target) => s!"{value}:0x{Text.address target}"
    "Switch " ++ String.intercalate ", " shown
  | .textLabelAssignString size => s!"TextLabelAssignString {size}"
  | .textLabelAssignInt size => s!"TextLabelAssignInt {size}"
  | .textLabelAppendString size => s!"TextLabelAppendString {size}"
  | .textLabelAppendInt size => s!"TextLabelAppendInt {size}"

end Operation

/-- An operation with the address of the instruction it was lifted from. -/
structure LiftedOperation where
  address : Nat
  operation : Operation
deriving DecidableEq, Repr

/-- Text of a lifted operation: its address, then the operation. -/
def LiftedOperation.text (lifted : LiftedOperation) : String :=
  s!"{Text.address lifted.address}: {lifted.operation.text}"

end ScriptBytecode
