import ScriptBytecode.Statement.Constant

/-!
# Emitting instructions

An emission asks for one instruction.  There is one kind for every operand layout, and further ones
that choose their opcode themselves.  `Emission.statement` is the statement that is asked for, and
a collection keeps the fragments of all statements that have an encoding.
-/

namespace ScriptBytecode

/-- A request for one instruction. -/
inductive Emission where
  /-- An instruction without operands. -/
  | bare (opcode : Opcode)
  | u8 (opcode : Opcode) (value : UInt8)
  | u8u8 (opcode : Opcode) (first second : UInt8)
  | u8u8u8 (opcode : Opcode) (first second third : UInt8)
  | s16 (opcode : Opcode) (value : Int16)
  | u16 (opcode : Opcode) (value : UInt16)
  /-- Only the low 24 bits of the value are stored. -/
  | u24 (opcode : Opcode) (value : UInt32)
  | u32 (opcode : Opcode) (value : UInt32)
  | f32 (opcode : Opcode) (value : Binary32)
  /-- A jump whose offset is known. -/
  | rel16 (opcode : Opcode) (offset : Int16)
  /-- A jump to a label of the same function. -/
  | jump (opcode : Opcode) (label : String)
  /-- A call of a function by name. -/
  | call (function : String)
  | enter (parameters : UInt8) (frameSize : UInt16) (name : Option String)
  | leave (parameters returns : UInt8)
  /-- A call of the native at an index of the native table. -/
  | native (parameters returns : UInt8) (index : UInt16)
  /-- A switch whose cases jump to labels of the same function. -/
  | switch (cases : List (UInt32 × String))
  /-- A switch whose offsets are known. -/
  | switchOffsets (cases : List (UInt32 × Int16))
  /-- The shortest push of an integer. -/
  | pushInt (value : Int32)
  /-- The push of a number bit for bit. -/
  | pushFloat (value : Binary32)
deriving DecidableEq, Repr

namespace Emission

/-- The statement that an emission asks for. -/
def statement : Emission → Statement
  | .bare opcode => .plain opcode .none
  | .u8 opcode value => .plain opcode (.u8 value)
  | .u8u8 opcode first second => .plain opcode (.u8u8 first second)
  | .u8u8u8 opcode first second third => .plain opcode (.u8u8u8 first second third)
  | .s16 opcode value => .plain opcode (.s16 value)
  | .u16 opcode value => .plain opcode (.u16 value)
  | .u24 opcode value => .plain opcode (.u24 value)
  | .u32 opcode value => .plain opcode (.u32 value)
  | .f32 opcode value => .plain opcode (.f32 value)
  | .rel16 opcode offset => .plain opcode (.rel16 offset)
  | .jump opcode label => .jump opcode label
  | .call function => .call function
  | .enter parameters frameSize name => .enter parameters frameSize name
  | .leave parameters returns => .leave parameters returns
  | .native parameters returns index => .native parameters returns index
  | .switch cases => .switch cases
  | .switchOffsets cases => .switchOffsets cases
  | .pushInt value => .pushInt value
  | .pushFloat value => .pushFloat value

end Emission

/-- The fragments of the instructions emitted so far, in order. -/
structure Collected where
  fragments : Array Fragment := #[]
deriving DecidableEq, Repr

namespace Collected

/-- Emits an instruction and answers its position in the collection. -/
def emit (emission : Emission) : EStateM Error Collected Nat := fun collected =>
  match emission.statement.encode with
  | .ok fragment => .ok collected.fragments.size ⟨collected.fragments.push fragment⟩
  | .error error => .error error collected

/-- The bytes of all instructions, one after the other. -/
def code (collected : Collected) : Bytes :=
  collected.fragments.foldl (fun code fragment => code ++ fragment.bytes) #[]

end Collected
end ScriptBytecode
