import Std.Data.TreeMap
import ScriptBytecode.Arena.Fusion
import ScriptBytecode.Builder.Link

/-!
# Code units

A code unit collects the functions of a script, each with an arena of instructions, and the table
of the natives they call.  Finishing a unit lays out its functions one after the other and links
them, after fusing instructions if that is asked for.

A call that fails reports an error and keeps the state as it is at that moment.
-/

namespace ScriptBytecode

/-- A function and its instructions. -/
structure FunctionCode where
  name : String
  arena : Arena := {}
deriving DecidableEq, Repr

/-- The code of a script in the making. -/
structure CodeUnit where
  /-- The finished functions, in order. -/
  finished : Array FunctionCode := #[]
  /-- The function that is being written. -/
  current : Option FunctionCode := none
  /-- The hashes of the natives, by index. -/
  natives : Array UInt64 := #[]
  /-- The index of every hash in the table. -/
  nativeIndices : Std.TreeMap UInt64 UInt16 := {}

/-- The result of a finished unit. -/
structure UnitCode where
  pages : Paged UInt8
  length : Nat
  natives : Array UInt64
  functions : Array (String × Nat)

/-- A unit call: it changes the state, also when it fails. -/
abbrev UnitM := EStateM Error CodeUnit

/-- Greatest number of natives: the indices have sixteen bits. -/
def maxNatives : Nat := 0x10000

namespace CodeUnit

/-- All functions in order, the one that is being written last. -/
def functions (codeUnit : CodeUnit) : Array FunctionCode :=
  match codeUnit.current with
  | some function => codeUnit.finished.push function
  | none => codeUnit.finished

/-- Begins a function. -/
def beginFunction (name : String) : UnitM Unit := fun codeUnit =>
  if codeUnit.current.isSome then .error (.misplaced .functionInsideFunction) codeUnit
  else if codeUnit.finished.any (·.name == name) then .error (.duplicateFunction name) codeUnit
  else .ok () { codeUnit with current := some { name } }

/-- Ends the function that is being written. -/
def endFunction : UnitM Unit := fun codeUnit =>
  match codeUnit with
  | ⟨finished, some ⟨name, arena⟩, natives, nativeIndices⟩ =>
    .ok () ⟨finished.push ⟨name, arena.close⟩, none, natives, nativeIndices⟩
  | codeUnit => .error (.misplaced .instructionOutsideFunction) codeUnit

/-- Places a label before the next instruction of the function. -/
def label (label : String) : UnitM Unit := fun codeUnit =>
  if label.isEmpty then .error .emptyLabel codeUnit
  else
    match codeUnit.current with
    | none => .error (.misplaced .instructionOutsideFunction) codeUnit
    | some function =>
      if function.arena.hasLabel label then .error (.duplicateLabel function.name label) codeUnit
      else
        .ok ()
          { codeUnit with
            current := some { function with arena := function.arena.addLabel label } }

/-- Appends an encoded instruction to the function. -/
def append (fragment : Fragment) : UnitM Handle := fun codeUnit =>
  match codeUnit with
  | ⟨finished, some ⟨name, arena⟩, natives, nativeIndices⟩ =>
    let (handle, arena) := arena.push ⟨fragment.bytes, fragment.references, []⟩
    .ok handle ⟨finished, some ⟨name, arena⟩, natives, nativeIndices⟩
  | codeUnit => .error (.misplaced .instructionOutsideFunction) codeUnit

/-- Appends a statement to the function. -/
def emit (statement : Statement) : UnitM Handle := fun codeUnit =>
  match statement.encode with
  | .ok fragment => append fragment codeUnit
  | .error error => .error error codeUnit

/-- The index of a native, which is added to the table unless it is there. -/
def nativeIndex (hash : UInt64) : UnitM UInt16 := fun codeUnit =>
  match codeUnit.nativeIndices[hash]? with
  | some index => .ok index codeUnit
  | none =>
    if maxNatives ≤ codeUnit.natives.size then .error (.malformed .tooManyNatives) codeUnit
    else
      let index := UInt16.ofNat codeUnit.natives.size
      .ok index
        { codeUnit with
          natives := codeUnit.natives.push hash
          nativeIndices := codeUnit.nativeIndices.insert hash index }

/-- Appends a call of the native with a hash, which is added to the table unless it is there. -/
def native (parameters returns : UInt8) (hash : UInt64) : UnitM Handle := do
  let index ← nativeIndex hash
  emit (.native parameters returns index)

/-- Places an instruction with its labels. -/
def placeEntry (entry : Entry) : BuildM Unit := do
  entry.labels.forM Builder.addLabel
  let _ ← Builder.instruction entry.bytes entry.references

/-- Places a function. -/
def placeFunction (function : FunctionCode) : BuildM Unit := do
  Builder.beginFunction function.name
  function.arena.entries.toList.forM placeEntry
  function.arena.trailing.forM Builder.addLabel
  Builder.endFunction

/-- A function with its instructions fused. -/
def fuseFunction (function : FunctionCode) : FunctionCode :=
  { function with arena := function.arena.fuse.1 }

/-- Lays out the functions and links them. -/
def finish (codeUnit : CodeUnit) (fuse : Bool) : Except Error UnitCode :=
  if codeUnit.current.isSome then .error (.misplaced .codeFinishedInsideFunction)
  else
    let functions := if fuse then codeUnit.finished.map fuseFunction else codeUnit.finished
    match functions.toList.forM placeFunction |>.run {} with
    | .error error _ => .error error
    | .ok () builder =>
      builder.finish.map fun linked =>
        ⟨linked.pages, linked.length, codeUnit.natives, linked.functions⟩

end CodeUnit
end ScriptBytecode
