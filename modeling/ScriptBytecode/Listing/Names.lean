import ScriptBytecode.AddressTable
import ScriptBytecode.Instruction.Basic

/-!
# Functions and names in code

Code is divided into functions: one begins at the start of the code and at every instruction that
enters a function.  A function goes by the name in its enter instruction if it is the first to do
so, and otherwise by a name made of its address, as labels do.
-/

namespace ScriptBytecode
namespace Listing

/-- The name of a label made of its address. -/
def labelName (address : Nat) : String :=
  "loc_" ++ Text.address address

/-- The name of a function made of its address. -/
def addressName (address : Nat) : String :=
  "func_" ++ Text.address address

/-- Whether a name looks as if it were made of an address. -/
def looksGenerated (name : String) : Bool :=
  "loc_".toList.isPrefixOf name.toList || "func_".toList.isPrefixOf name.toList

/-- The consecutive instructions of a function. -/
structure Body where
  first : Instruction
  rest : List Instruction
deriving DecidableEq, Repr

namespace Body

/-- All instructions of a function. -/
def instructions (body : Body) : List Instruction :=
  body.first :: body.rest

/-- The address of a function. -/
def start (body : Body) : Nat :=
  body.first.ip

/-- The address after a function. -/
def stop (body : Body) : Nat :=
  (body.rest.getLast?.getD body.first).stop

/-- The name in the enter instruction of a function. -/
def ownName? (body : Body) : Option String :=
  match body.first.operands with
  | .enter _ _ nameField => Operands.enterName? nameField
  | _ => none

/-- Puts an instruction in front of what follows it: instructions of the same function and the
bodies of further functions.  An enter instruction begins a function. -/
def divideStep (instruction : Instruction) :
    List Instruction × List Body → List Instruction × List Body
  | (rest, bodies) =>
    if instruction.opcode = .enter then ([], ⟨instruction, rest⟩ :: bodies)
    else (instruction :: rest, bodies)

/-- Divides instructions into functions. -/
def divide (instructions : Array Instruction) : List Body :=
  match instructions.foldr divideStep ([], []) with
  | (first :: rest, bodies) => ⟨first, rest⟩ :: bodies
  | ([], bodies) => bodies

end Body

/-- A function of the code under its name. -/
structure NamedBody where
  name : String
  body : Body
deriving DecidableEq, Repr

/-- The name of a function after some others have theirs. -/
def nameBody (named : Array NamedBody) (body : Body) : String :=
  match body.ownName? with
  | some name =>
    if name.isEmpty || looksGenerated name || named.any (·.name == name) then
      addressName body.start
    else name
  | none => addressName body.start

/-- Names all functions in order. -/
def nameBodies (bodies : List Body) : Array NamedBody :=
  bodies.foldl (fun named body => named.push ⟨nameBody named body, body⟩) #[]

/-- The names of functions by address. -/
def functionNames (codeLength : Nat) (named : Array NamedBody) : AddressTable String :=
  AddressTable.ofList 0 codeLength (named.toList.map fun function =>
    (function.body.start, function.name))

end Listing
end ScriptBytecode
