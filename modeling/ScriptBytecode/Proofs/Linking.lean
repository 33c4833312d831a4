import ScriptBytecode.Proofs.PageTails
import ScriptBytecode.Proofs.Paging
import ScriptBytecode.Proofs.Symbols

/-!
# Linked code

The code of a finished build consists of the resolved instructions of the statements, in order, and
of the instructions that fill page tails.  Every reference is written into its own instruction.
-/

namespace ScriptBytecode

open Instruction Statement Builder

/-! ## Writing an operand into an instruction of the code -/

/-- Bytes are written over a part of some code. -/
theorem overwrite_middle
    (before middle after : Bytes)
    (offset : Nat)
    (operand : List UInt8)
    (inside : offset + operand.length ≤ middle.size) :
    overwrite (before ++ middle ++ after) (before.size + offset) operand =
      before ++ overwrite middle offset operand ++ after := by
  have divided : middle = middle.extract 0 offset ++
      (middle.extract offset (offset + operand.length)).toList.toArray ++
      middle.extract (offset + operand.length) middle.size := by
    rw [Array.toArray_toList, Array.extract_append_extract,
      Nat.max_eq_right (Nat.le_add_right _ _), Array.extract_append_extract,
      Nat.max_eq_right inside, Nat.min_eq_left (Nat.zero_le _), Nat.min_eq_left (Nat.zero_le _),
      Array.extract_size]
  have sameLength :
      (middle.extract offset (offset + operand.length)).toList.length = operand.length := by
    rw [Array.length_toList, Array.size_extract]
    omega
  have inMiddle := overwrite_append (middle.extract 0 offset)
    (middle.extract (offset + operand.length) middle.size) _ operand sameLength
  have inCode := overwrite_append (before ++ middle.extract 0 offset)
    (middle.extract (offset + operand.length) middle.size ++ after) _ operand sameLength
  have start : (middle.extract 0 offset).size = offset := by
    rw [Array.size_extract]
    omega
  rw [← divided, start] at inMiddle
  rw [Array.size_append, start] at inCode
  have sameCode : before ++ middle ++ after = before ++ middle.extract 0 offset ++
      (middle.extract offset (offset + operand.length)).toList.toArray ++
      (middle.extract (offset + operand.length) middle.size ++ after) := by
    conv => lhs; rw [divided]
    simp only [Array.append_assoc]
  rw [sameCode, inCode, inMiddle]
  simp only [Array.append_assoc]

/-- An operand inside of an instruction that lies in one page can be written. -/
theorem Fixup.patch_middle
    (before middle after : Bytes)
    (samePage : before.size % pageLength + middle.size ≤ pageLength)
    (offset : Nat)
    (operand : List UInt8)
    (notEmpty : 0 < operand.length)
    (inside : offset + operand.length ≤ middle.size) :
    patch (before ++ middle ++ after) (before.size + offset) operand =
      .ok (before ++ overwrite middle offset operand ++ after) := by
  have inCode : before.size + offset < (before ++ middle ++ after).size := by
    rw [Array.size_append, Array.size_append]
    omega
  have pageExists := Paged.lt_pageCount_of_lt inCode
  have inPage : inPage (before ++ middle ++ after).size (before.size + offset)
      operand.length = true := by
    simp only [Fixup.inPage, pageExists, true_and, decide_eq_true_eq]
    unfold pageLength at *
    omega
  unfold patch
  rw [if_pos inPage]
  exact congrArg Except.ok (overwrite_middle before middle after offset operand inside)

/-! ## Resolving references -/

/-- The address of a label, as the linker finds it. -/
def labelOf (functions : Array FunctionSymbols) (function label : String) : Nat :=
  (finishedLabel? functions function label).getD 0

/-- The address of a function, as the linker finds it. -/
def startOf (functions : Array FunctionSymbols) (name : String) : Nat :=
  ((functions.find? (·.name == name)).map (·.start)).getD 0

/-- The operand of a label in an instruction at an address. -/
def labelOperand (functions : Array FunctionSymbols) (function : String) (address offset : Nat)
    (label : String) : Int16 :=
  Int16.ofInt (labelOf functions function label - ((address + offset : Nat) + 2))

/-- The operand of a function. -/
def functionOperand (functions : Array FunctionSymbols) (name : String) : UInt32 :=
  UInt32.ofNat (startOf functions name)

namespace Fixup

variable {functions : Array FunctionSymbols} {fixup : Fixup} {operand : List UInt8}

/-- A reference that the linker resolves. -/
def Resolvable (functions : Array FunctionSymbols) (fixup : Fixup) : Prop :=
  ∃ operand, fixup.operand functions = .ok operand

/-- A reference to a label is resolved if the label is known and near enough. -/
theorem operand_relative_iff
    (isRelative : fixup.kind = .relative) :
    fixup.operand functions = .ok operand ↔
      ∃ target, finishedLabel? functions fixup.function fixup.target = some target ∧
        (-0x8000 ≤ (target : Int) - (fixup.address + 2) ∧
          (target : Int) - (fixup.address + 2) ≤ 0x7FFF) ∧
        Bytes.ofUInt16 (Int16.ofInt (target - (fixup.address + 2))).toUInt16 = operand := by
  unfold Fixup.operand
  simp only [isRelative]
  split
  · rename_i unknown
    simp [unknown]
  · rename_i target known
    simp only [known, Option.some.injEq, exists_eq_left']
    split
    · rename_i near
      rw [and_iff_right near, Except.ok.injEq]
    · rename_i far
      simp only [far, false_and, reduceCtorEq]

/-- A reference to a function is resolved if the function is known and its address can be
stored. -/
theorem operand_absolute_iff
    (isAbsolute : fixup.kind = .absolute) :
    fixup.operand functions = .ok operand ↔
      ∃ symbols, functions.find? (·.name == fixup.target) = some symbols ∧
        symbols.start ≤ maxCallTarget ∧
        Bytes.ofUInt24 (UInt32.ofNat symbols.start) = operand := by
  unfold Fixup.operand
  simp only [isAbsolute]
  split
  · rename_i unknown
    simp [unknown]
  · rename_i symbols known
    simp only [known, Option.some.injEq, exists_eq_left']
    split
    · rename_i far
      simp [Nat.not_le.mpr far]
    · rename_i near
      simp [Nat.not_lt.mp near]

end Fixup

/-- The operand that a reference is resolved to. -/
theorem operand_fixupOf
    {functions : Array FunctionSymbols} {function : String} {address : Nat} {reference : Reference}
    (resolvable : (fixupOf function address reference).Resolvable functions) :
    (fixupOf function address reference).operand functions =
      .ok (operandBytes (labelOperand functions function address) (functionOperand functions)
        reference) := by
  obtain ⟨operand, found⟩ := resolvable
  obtain ⟨offset, kind, target⟩ := reference
  rw [found]
  cases kind with
  | absolute =>
      obtain ⟨symbols, known, _, rfl⟩ := (Fixup.operand_absolute_iff rfl).mp found
      simp only [fixupOf] at known
      simp [operandBytes, functionOperand, startOf, known]
  | relative =>
      obtain ⟨label, known, _, rfl⟩ := (Fixup.operand_relative_iff rfl).mp found
      simp only [fixupOf] at known
      simp [operandBytes, labelOperand, labelOf, known, fixupOf]

/-- The references of one instruction are resolved exactly when each of them can be, and only the
instruction changes. -/
theorem foldlM_resolve_references
    (functions : Array FunctionSymbols)
    (function : String)
    (before middle after : Bytes)
    (samePage : before.size % pageLength + middle.size ≤ pageLength)
    (references : List Reference)
    (inside : ∀ reference ∈ references,
      reference.offset + reference.kind.width ≤ middle.size)
    (code : Bytes) :
    (references.map (fixupOf function before.size)).foldlM (Fixup.resolve functions)
        (before ++ middle ++ after) = .ok code ↔
      (∀ reference ∈ references,
        (fixupOf function before.size reference).Resolvable functions) ∧
        before ++ fillIn (labelOperand functions function before.size)
          (functionOperand functions) middle references ++ after = code := by
  induction references generalizing middle with
  | nil => simp [fillIn, pure, Except.pure]
  | cons reference rest ih =>
      have width := length_operandBytes (labelOperand functions function before.size)
        (functionOperand functions) reference
      have positive : 0 < reference.kind.width := by
        cases reference.kind <;> decide
      have referenceInside := inside reference List.mem_cons_self
      rw [List.map_cons, List.foldlM_cons]
      by_cases resolvable : (fixupOf function before.size reference).Resolvable functions
      · have resolved : Fixup.resolve functions (before ++ middle ++ after)
            (fixupOf function before.size reference) =
            .ok (before ++ overwrite middle reference.offset
              (operandBytes (labelOperand functions function before.size)
                (functionOperand functions) reference) ++ after) := by
          simp only [Fixup.resolve, operand_fixupOf resolvable]
          exact Fixup.patch_middle before middle after samePage reference.offset _
            (by omega) (by omega)
        rw [resolved]
        change List.foldlM _ _ (rest.map _) = _ ↔ _
        rw [ih _ (by rwa [size_overwrite])
          (fun other member => by
            rw [size_overwrite]
            exact inside other (List.mem_cons_of_mem _ member))]
        simp [fillIn, resolvable]
      · have failed : ∃ error, Fixup.resolve functions (before ++ middle ++ after)
            (fixupOf function before.size reference) = .error error := by
          unfold Fixup.resolve
          split
          · rename_i operand found
            exact absurd ⟨operand, found⟩ resolvable
          · exact ⟨_, rfl⟩
        obtain ⟨error, failed⟩ := failed
        rw [failed]
        simp [bind, Except.bind, resolvable]

end ScriptBytecode
