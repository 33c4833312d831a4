import ScriptBytecode.Paged
import ScriptBytecode.SortByKey
import ScriptBytecode.Statement.Basic

/-!
# Laying out code

The builder places instructions one after the other in code pages.  An instruction never crosses
the end of a page: when it does not fit, the rest of the page is filled and the instruction starts
the next one.  A sequential instruction also leaves the last byte of a page free for the transition
to the next page.

Labels and function starts stand for the next instruction placed.  They get their address when it
is placed, or when the function ends if none follows, so they are never left before a filler.
References are collected while instructions are built and are resolved in the end.

A call that fails reports an error and keeps the state as it is at that moment.
-/

namespace ScriptBytecode

/-- A reference at an address of the code, to be resolved when all code is placed. -/
structure Fixup where
  /-- The function whose labels a relative reference can name. -/
  function : String
  kind : ReferenceKind
  target : String
  address : Nat
deriving DecidableEq, Repr

/-- A finished function: its address and those of its labels. -/
structure FunctionSymbols where
  name : String
  start : Nat
  labels : List (String × Nat)
deriving DecidableEq, Repr

/-- The function that is being built. -/
structure OpenFunction where
  name : String
  /-- The address of its first instruction, once there is one. -/
  start : Option Nat := none
  /-- The labels that stand for a placed instruction. -/
  labels : List (String × Nat) := []
  /-- The labels that stand for the next instruction, in the order in which they were added. -/
  pending : List String := []
  /-- Whether an instruction is begun and not ended. -/
  inInstruction : Bool := false
deriving DecidableEq, Repr

namespace OpenFunction

/-- Binds what waits for an address: the start, unless it is known, and the pending labels. -/
def bindAt (function : OpenFunction) (address : Nat) : OpenFunction :=
  { function with
    start := some (function.start.getD address)
    labels := function.pending.map (fun label => (label, address)) ++ function.labels
    pending := [] }

/-- Whether a label was added, pending or not. -/
def hasLabel (function : OpenFunction) (label : String) : Bool :=
  function.pending.contains label || (function.labels.lookup label).isSome

/-- The symbols of a function that ends at an address. -/
def close (function : OpenFunction) (address : Nat) : FunctionSymbols :=
  let bound := function.bindAt address
  ⟨function.name, bound.start.getD address, bound.labels⟩

end OpenFunction

/-- The state of a build. -/
structure Builder where
  /-- The code placed so far, fillers included. -/
  code : Bytes := #[]
  /-- The bytes written since the last instruction was begun. -/
  buffer : Bytes := #[]
  /-- The references recorded before the last instruction was begun. -/
  settled : Array Fixup := #[]
  /-- The references recorded since then. -/
  recent : Array Fixup := #[]
  /-- The finished functions, in order. -/
  functions : Array FunctionSymbols := #[]
  /-- The function that is being built. -/
  current : Option OpenFunction := none

/-- Instructions of this length or more cannot be placed. -/
def instructionLimit : Nat := pageLength / 2

/-- A builder call: it changes the state, also when it fails. -/
abbrev BuildM := EStateM Error Builder

namespace Builder

/-- The address of a function; a function without instructions stands at the end of the code. -/
def functionAddress? (builder : Builder) (name : String) : Option Nat :=
  match builder.current with
  | some function =>
    if function.name = name then some (function.start.getD builder.code.size)
    else (builder.functions.find? (·.name == name)).map (·.start)
  | none => (builder.functions.find? (·.name == name)).map (·.start)

/-- The address of a label of a finished function. -/
def finishedLabel? (functions : Array FunctionSymbols) (function label : String) : Option Nat :=
  (functions.find? (·.name == function)).bind fun symbols => symbols.labels.lookup label

/-- The address of a label of a function; a pending label stands at the end of the code. -/
def labelAddress? (builder : Builder) (function label : String) : Option Nat :=
  match builder.current with
  | some current =>
    if current.name = function then
      if current.pending.contains label then some builder.code.size
      else current.labels.lookup label
    else finishedLabel? builder.functions function label
  | none => finishedLabel? builder.functions function label

/-- Begins a function. -/
def beginFunction (name : String) : BuildM Unit := fun builder =>
  if builder.current.isSome then .error (.misplaced .functionInsideFunction) builder
  else if builder.functions.any (·.name == name) then .error (.duplicateFunction name) builder
  else .ok () { builder with current := some { name } }

/-- Ends the function that is being built. -/
def endFunction : BuildM Unit := fun builder =>
  match builder.current with
  | none => .error (.misplaced .functionEndWithoutStart) builder
  | some function =>
    if function.inInstruction then .error (.misplaced .functionEndInsideInstruction) builder
    else
      let symbols := function.close builder.code.size
      .ok () { builder with functions := builder.functions.push symbols, current := none }

/-- Adds a label, which stands for the next instruction. -/
def addLabel (label : String) : BuildM Unit := fun builder =>
  if label.isEmpty then .error .emptyLabel builder
  else
    match builder.current with
    | none => .error (.misplaced .labelOutsideFunction) builder
    | some function =>
      if function.inInstruction then .error (.misplaced .labelInsideInstruction) builder
      else if function.hasLabel label then .error (.duplicateLabel function.name label) builder
      else
        let pending := function.pending ++ [label]
        .ok () { builder with current := some { function with pending } }

/-- Begins an instruction. -/
def beginInstruction : BuildM Unit := fun builder =>
  match builder.current with
  | none => .error (.misplaced .instructionOutsideFunction) builder
  | some function =>
    if function.inInstruction then .error (.misplaced .instructionInsideInstruction) builder
    else
      .ok ()
        { builder with
          buffer := #[]
          settled := builder.settled ++ builder.recent
          recent := #[]
          current := some { function with inInstruction := true } }

/-- Writes bytes of an instruction. -/
def write (bytes : Bytes) : BuildM Unit := fun builder =>
  .ok () { builder with buffer := builder.buffer ++ bytes }

/-- Writes the zero bytes of a reference and records it. -/
def reference (kind : ReferenceKind) (target : String) : BuildM Unit := fun builder =>
  match builder.current with
  | none => .error (.misplaced .referenceOutsideFunction) builder
  | some function =>
    let address := builder.code.size + builder.buffer.size
    .ok ()
      { builder with
        buffer := builder.buffer ++ Array.replicate kind.width 0
        recent := builder.recent.push ⟨function.name, kind, target, address⟩ }

/-- Number of bytes that an instruction leaves free at the end of a page: none if its opcode passes
control on by itself or does nothing. -/
def reservedBytes (instruction : Bytes) : Nat :=
  match instruction[0]?.bind Opcode.ofByte? with
  | some opcode => if opcode.isControlFlow || opcode == .nop then 0 else 1
  | none => 1

/-- What fills the rest of a page: a jump to the next page if there is room for one, and no-ops. -/
def filler (remaining : Nat) : Bytes :=
  if 3 < remaining then
    let offset := UInt16.ofNat (remaining - 3)
    (Opcode.j.toByte :: Bytes.ofUInt16 offset).toArray ++
      Array.replicate (remaining - 3) Opcode.nop.toByte
  else Array.replicate remaining Opcode.nop.toByte

/-- What has to be placed between code of a given size and an instruction: nothing if the
instruction fits in the page, and else what fills the page. -/
def gap (codeSize : Nat) (instruction : Bytes) : Bytes :=
  let offset := codeSize % pageLength
  if offset + instruction.size > pageLength - reservedBytes instruction then
    filler (pageLength - offset)
  else #[]

/-- Places the bytes written as an instruction of a function. -/
def place (builder : Builder) (function : OpenFunction) : Builder :=
  let gap := gap builder.code.size builder.buffer
  let address := builder.code.size + gap.size
  let recent :=
    if gap.isEmpty then builder.recent
    else builder.recent.map fun fixup => { fixup with address := fixup.address + gap.size }
  { builder with
    code := builder.code ++ gap ++ builder.buffer
    recent
    current := some { function.bindAt address with inInstruction := false } }

/-- Ends an instruction and places it. -/
def endInstruction : BuildM Unit := fun builder =>
  match builder.current with
  | none => .error (.misplaced .instructionEndWithoutStart) builder
  | some function =>
    if !function.inInstruction then .error (.misplaced .instructionEndWithoutStart) builder
    else
      let ended := some { function with inInstruction := false }
      if builder.buffer.isEmpty then
        .error (.misplaced .emptyInstruction) { builder with current := ended }
      else if instructionLimit ≤ builder.buffer.size then
        .error (.instructionTooLong builder.buffer.size) { builder with current := ended }
      else .ok () (builder.place function)

/-- Writes bytes from a position on, with references in place of the bytes at their offsets.  The
references have to be in order, inside of the bytes and apart from each other. -/
def writeReferences (bytes : Bytes) : (position : Nat) → List Reference → BuildM Unit
  | position, [] =>
    if position ≤ bytes.size then write (bytes.extract position bytes.size)
    else throw .referenceOutOfBounds
  | position, next :: rest =>
    if position ≤ next.offset ∧ next.offset ≤ bytes.size then do
      write (bytes.extract position next.offset)
      reference next.kind next.target
      writeReferences bytes (next.offset + next.kind.width) rest
    else throw .referenceOutOfBounds

/-- Places a whole instruction and answers its address. -/
def instruction (bytes : Bytes) (references : List Reference) : BuildM Nat := do
  beginInstruction
  writeReferences bytes 0 (sortByKey Reference.offset references)
  let size := (← get).buffer.size
  endInstruction
  return (← get).code.size - size

/-- Places a statement and answers its address. -/
def emit (statement : Statement) : BuildM Nat := fun builder =>
  match statement.encode with
  | .ok fragment => instruction fragment.bytes fragment.references builder
  | .error error => .error error builder

end Builder
end ScriptBytecode
