import ScriptBytecode.Builder.Basic

/-!
# Linking

When every function is finished, the references are resolved in the order in which they were
recorded: a call gets the address of the function it names, a jump the distance to the label it
names in its own function.
-/

namespace ScriptBytecode

/-- Linked code and the addresses of its functions. -/
structure LinkedCode where
  pages : Paged UInt8
  length : Nat
  functions : Array (String × Nat)
deriving DecidableEq, Repr

/-- Greatest address of a function that can be called. -/
def maxCallTarget : Nat := 0xFFFFFF

namespace Fixup

/-- The operand bytes of a reference. -/
def operand (functions : Array FunctionSymbols) (fixup : Fixup) : Except Error (List UInt8) :=
  match fixup.kind with
  | .absolute =>
    match functions.find? (·.name == fixup.target) with
    | none => .error (.undefinedFunction fixup.target)
    | some symbols =>
      if maxCallTarget < symbols.start then .error (.addressOutOfRange symbols.start)
      else .ok (Bytes.ofUInt24 (UInt32.ofNat symbols.start))
  | .relative =>
    match Builder.finishedLabel? functions fixup.function fixup.target with
    | none => .error (.undefinedLabel fixup.function fixup.target)
    | some target =>
      let distance : Int := target - (fixup.address + 2)
      if -0x8000 ≤ distance ∧ distance ≤ 0x7FFF then
        .ok (Bytes.ofUInt16 (Int16.ofInt distance).toUInt16)
      else .error (.jumpOutOfRange fixup.address target)

/-- Whether an operand lies in one page that holds code. -/
def inPage (codeSize address width : Nat) : Bool :=
  address / pageLength < pageCount codeSize ∧ address % pageLength + width ≤ pageLength

/-- Writes operand bytes over the code; bytes past the end of the code go to the unused rest of its
last page and leave no trace. -/
def patch (code : Bytes) (address : Nat) (operand : List UInt8) : Except Error Bytes :=
  if inPage code.size address operand.length then
    .ok (operand.zipIdx.foldl
      (fun code (byte, index) => code.setIfInBounds (address + index) byte) code)
  else .error .referenceOutOfBounds

/-- Resolves a reference in the code. -/
def resolve (functions : Array FunctionSymbols) (code : Bytes) (fixup : Fixup) :
    Except Error Bytes :=
  match fixup.operand functions with
  | .ok operand => patch code fixup.address operand
  | .error error => .error error

end Fixup

namespace Builder

/-- Resolves every reference and divides the code into pages. -/
def finish (builder : Builder) : Except Error LinkedCode :=
  if builder.current.isSome then .error (.misplaced .buildFinishedInsideFunction)
  else do
    let functions := builder.functions
    let fixups := builder.settled ++ builder.recent
    let code ← fixups.foldlM (Fixup.resolve functions) builder.code
    return {
      pages := Paged.ofArray code
      length := code.size
      functions := functions.map fun symbols => (symbols.name, symbols.start) }

end Builder
end ScriptBytecode
