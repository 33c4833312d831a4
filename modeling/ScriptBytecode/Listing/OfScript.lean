import ScriptBytecode.Binary32.Shortest
import ScriptBytecode.Listing.Basic
import ScriptBytecode.Listing.Names
import ScriptBytecode.Script.Basic

/-!
# Listing a script

A jump or switch is listed with labels if every one of its targets is an instruction of the same
function, or the end of the code if the function is the last one.  Otherwise it is listed with
its offsets.
-/

namespace ScriptBytecode

/-- The targets of a jump or of the cases of a switch. -/
def Instruction.targets (instruction : Instruction) : List Nat :=
  match instruction.operands with
  | .rel16 offset => [jumpTarget instruction.ip offset]
  | .switch cases => (switchCases instruction.ip cases).map fun (_, _, _, target) => target
  | _ => []

namespace Listing

/-- The texts of the operands of an instruction; `named` tells whether its targets have labels. -/
def operandTexts (named : Bool) (names : AddressTable String) (natives : Array UInt64)
    (instruction : Instruction) : Except Error (List String) :=
  match instruction.operands with
  | .none => .ok []
  | .u8 value => .ok [toString value.toNat]
  | .u8u8 first second => .ok [toString first.toNat, toString second.toNat]
  | .u8u8u8 first second third =>
    .ok [toString first.toNat, toString second.toNat, toString third.toNat]
  | .s16 value => .ok [toString value.toInt]
  | .u16 value => .ok [toString value.toNat]
  | .u24 value =>
    if instruction.opcode = .call then
      .ok [(names.get? value.toNat).getD ("0x" ++ Text.address value.toNat)]
    else .ok [toString value.toNat]
  | .u32 value => .ok [toString value.toNat]
  | .f32 value => .ok [value.text]
  | .rel16 offset =>
    if named then .ok [labelName (Instruction.jumpTarget instruction.ip offset)]
    else .ok [toString offset.toInt]
  | .native counts index =>
    match natives[index.toNat]? with
    | some hash =>
      .ok [toString (Operands.nativeParameters counts).toNat,
        toString (Operands.nativeReturns counts).toNat, "0x" ++ Text.hex 16 hash.toNat]
    | none => .error (.nativeIndexOutOfRange index.toNat natives.size)
  | .enter parameters frameSize nameField =>
    .ok ([toString parameters.toNat, toString frameSize.toNat] ++
      (Operands.enterName? nameField).toList)
  | .switch cases =>
    .ok ((Instruction.switchCases instruction.ip cases).map fun (_, value, offset, target) =>
      toString value.toNat ++ ":" ++
        if named then labelName target else toString offset.toInt)

/-- The item of an instruction. -/
def listInstruction (named : Bool) (names : AddressTable String) (natives : Array UInt64)
    (instruction : Instruction) : Except Error Item :=
  (operandTexts named names natives instruction).map
    (.instruction (some instruction.ip) instruction.opcode.mnemonic)

namespace Body

/-- The addresses in a function that can have a label: those of its instructions, and the end of
the code if the function reaches it. -/
def places (body : Body) (codeLength : Nat) : AddressSet :=
  let addresses := body.instructions.map Instruction.ip
  AddressSet.ofList body.start body.stop
    (if body.stop = codeLength then addresses ++ [codeLength] else addresses)

/-- The labels of a function: the targets of the instructions that have only targets among the
given places. -/
def labels (body : Body) (places : AddressSet) : AddressSet :=
  AddressSet.ofList body.start body.stop
    ((body.instructions.filter fun instruction => instruction.targets.all places.contains).flatMap
      Instruction.targets)

/-- The label at an address, if there is one. -/
def labelItem (labels : AddressSet) (address : Nat) : List Item :=
  if labels.contains address then [.label (labelName address)] else []

/-- The items of a function. -/
def items (body : Body) (codeLength : Nat) (names : AddressTable String)
    (natives : Array UInt64) : Except Error (List Item) := do
  let places := body.places codeLength
  let labels := body.labels places
  let listed ← body.instructions.mapM fun instruction => do
    let named := instruction.targets.all places.contains
    let item ← listInstruction named names natives instruction
    return labelItem labels instruction.ip ++ [item]
  return listed.flatten ++ labelItem labels body.stop

end Body

/-- The strings of a script with their ids.  Empty ones are padding. -/
def stringEntries (script : Script) : List StringEntry :=
  script.stringIds.toList.filterMap fun id =>
    match script.string? id with
    | some value => if value.isEmpty then none else some ⟨some id, value⟩
    | none => none

/-- The data of a script apart from its code. -/
def configOf (script : Script) : Config :=
  { name := script.name
    argsCount := script.argsCount
    statics := script.statics
    globalsSignature := script.globalsSignature
    globalsBlock := script.globalsBlock
    globals := script.globalsPages.flatten
    natives := script.natives
    strings := stringEntries script
    stringsLength := script.stringsLength
    globalBlockHashes := script.globalBlockHashes }

/-- The functions of code that a walk has divided into instructions. -/
def functionsOf (codeLength : Nat) (natives : Array UInt64) (instructions : Array Instruction) :
    Except Error (List Function) := do
  let named := nameBodies (Body.divide instructions)
  let names := functionNames codeLength named
  named.toList.mapM fun ⟨name, body⟩ => do
    let items ← body.items codeLength names natives
    return ⟨name, body.start, items⟩

/-- Lists a script. -/
def ofScript (script : Script) : Except Error Listing :=
  let code := script.code
  match walk code with
  | ⟨_, some error⟩ => .error error
  | ⟨instructions, none⟩ => do
    let functions ← functionsOf code.size script.natives instructions
    return ⟨configOf script, functions⟩

end Listing
end ScriptBytecode
