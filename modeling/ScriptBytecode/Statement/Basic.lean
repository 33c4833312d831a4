import ScriptBytecode.Error
import ScriptBytecode.Instruction.Operands

/-!
# Symbolic instructions

Code is written as statements.  A statement is an instruction whose operands are known, or one that
refers to a label of its function or to a function by name.  `Statement.encode` gives the bytes of
the instruction, with zeros where an operand is a reference, and the list of these references.
-/

namespace ScriptBytecode

/-- How a reference is stored. -/
inductive ReferenceKind where
  /-- A signed 16-bit offset to a label, relative to the end of the operand. -/
  | relative
  /-- The 24-bit address of a function. -/
  | absolute
deriving DecidableEq, Repr

/-- Number of bytes of a reference. -/
def ReferenceKind.width : ReferenceKind → Nat
  | .relative => 2
  | .absolute => 3

/-- An operand to be filled in: `kind.width` zero bytes at an offset of an instruction. -/
structure Reference where
  offset : Nat
  kind : ReferenceKind
  target : String
deriving DecidableEq, Repr

/-- The bytes of an instruction and the references among its operands. -/
structure Fragment where
  bytes : Bytes
  references : List Reference
deriving DecidableEq, Repr

/-- A symbolic instruction. -/
inductive Statement where
  /-- An instruction whose operands are known. -/
  | plain (opcode : Opcode) (operands : Operands)
  /-- A jump to a label of the same function. -/
  | jump (opcode : Opcode) (label : String)
  /-- A call of a function by name. -/
  | call (function : String)
  /-- A switch whose cases jump to labels of the same function. -/
  | switch (cases : List (UInt32 × String))
deriving DecidableEq, Repr

/-- Greatest number of cases of a switch. -/
def maxSwitchCases : Nat := 255

namespace Statement

/-- Whether the opcode of a statement takes operands of the kind it is given. -/
def MatchesLayout : Statement → Prop
  | .plain opcode operands => operands.layout = opcode.layout
  | .jump opcode _ => opcode.layout = .rel16
  | .call _ => True
  | .switch _ => True

/-- Number of switch cases of a statement; none for other statements. -/
def caseCount : Statement → Nat
  | .plain _ (.switch cases) => cases.length
  | .switch cases => cases.length
  | _ => 0

/-- The reference of the switch case at an index. -/
def caseReference (index : Nat) (label : String) : Reference :=
  ⟨6 + 6 * index, .relative, label⟩

/-- The fragment of a statement with an admissible number of cases. -/
def fragment : Statement → Fragment
  | .plain opcode operands => ⟨(opcode.toByte :: operands.toBytes).toArray, []⟩
  | .jump opcode label => ⟨#[opcode.toByte, 0, 0], [⟨1, .relative, label⟩]⟩
  | .call function => ⟨#[Opcode.call.toByte, 0, 0, 0], [⟨1, .absolute, function⟩]⟩
  | .switch cases =>
    let placeholders := cases.map fun (value, _) => (value, (0 : Int16))
    ⟨(Opcode.switch.toByte :: (Operands.switch placeholders).toBytes).toArray,
      cases.mapIdx fun index (_, label) => caseReference index label⟩

/-- Encodes a statement; a switch with too many cases has no encoding. -/
def encode (statement : Statement) : Except Error Fragment :=
  if maxSwitchCases < statement.caseCount then .error (.tooManySwitchCases statement.caseCount)
  else .ok statement.fragment

/-- Enters a function. -/
def enter (parameters : UInt8) (frameSize : UInt16) (name : Option String) : Statement :=
  .plain .enter (.enter parameters frameSize (Operands.nameFieldOf name))

/-- Leaves a function. -/
def leave (parameters returns : UInt8) : Statement :=
  .plain .leave (.u8u8 parameters returns)

/-- Calls the native at an index of the native table. -/
def native (parameters returns : UInt8) (index : UInt16) : Statement :=
  .plain .native (.native (Operands.packCounts parameters returns) index)

/-- A switch whose offsets are known. -/
def switchOffsets (cases : List (UInt32 × Int16)) : Statement :=
  .plain .switch (.switch cases)

end Statement
end ScriptBytecode
