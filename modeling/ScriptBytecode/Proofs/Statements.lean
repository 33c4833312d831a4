import ScriptBytecode.Builder.Link
import ScriptBytecode.Proofs.Walk

/-!
# The instructions that statements stand for

A statement becomes an instruction when its references are resolved.  The bytes of a statement are
those of the instruction with zeros for its references, and writing the operands of the references
over them gives the bytes of the resolved instruction.
-/

namespace ScriptBytecode
namespace Statement

variable {statement : Statement}

/-- The opcode of a statement. -/
def opcode : Statement → Opcode
  | .plain opcode _ => opcode
  | .jump opcode _ => opcode
  | .call _ => .call
  | .switch _ => .switch

/-- The first byte of a statement is that of its opcode. -/
theorem getElem?_zero_fragment (statement : Statement) :
    statement.fragment.bytes[0]? = some statement.opcode.toByte := by
  cases statement <;> simp [fragment, opcode]

/-- Length of the name field of a statement; none for other statements. -/
def nameLength : Statement → Nat
  | .plain _ (.enter _ _ nameField) => nameField.length
  | _ => 0

/-- A statement that has operands of the kind its opcode takes, and a name field, if any, whose
length fits in a byte. -/
structure Emittable (statement : Statement) : Prop where
  layout : statement.MatchesLayout
  nameFits : statement.nameLength < 256

instance (statement : Statement) : Decidable statement.MatchesLayout :=
  match statement with
  | .plain opcode operands => inferInstanceAs (Decidable (operands.layout = opcode.layout))
  | .jump opcode _ => inferInstanceAs (Decidable (opcode.layout = .rel16))
  | .call _ => .isTrue trivial
  | .switch _ => .isTrue trivial

instance (statement : Statement) : Decidable statement.Emittable :=
  decidable_of_iff (statement.MatchesLayout ∧ statement.nameLength < 256)
    ⟨fun ⟨layout, nameFits⟩ => ⟨layout, nameFits⟩, fun ⟨layout, nameFits⟩ => ⟨layout, nameFits⟩⟩

/-- A statement that can be emitted and encoded. -/
structure Encodable (statement : Statement) : Prop where
  emittable : statement.Emittable
  fewCases : statement.caseCount ≤ maxSwitchCases

/-- The cases of a switch with an operand in place of each label.  The operand of the first case
stands at the given offset of the instruction. -/
def resolvedCases (labelOperand : Nat → String → Int16) :
    (offset : Nat) → List (UInt32 × String) → List (UInt32 × Int16)
  | _, [] => []
  | offset, (value, label) :: rest =>
    (value, labelOperand offset label) :: resolvedCases labelOperand (offset + 6) rest

/-- The instruction of a statement at an address, given the relative operands of its labels, by
their offsets in the instruction, and the addresses of functions. -/
def resolved (address : Nat) (labelOperand : Nat → String → Int16)
    (functionOperand : String → UInt32) : Statement → Instruction
  | .plain opcode operands => ⟨address, opcode, operands.stored⟩
  | .jump opcode label => ⟨address, opcode, .rel16 (labelOperand 1 label)⟩
  | .call function => ⟨address, .call, .u24 (functionOperand function)⟩
  | .switch cases => ⟨address, .switch, .switch (resolvedCases labelOperand 6 cases)⟩

@[simp] theorem length_resolvedCases
    (labelOperand : Nat → String → Int16)
    (offset : Nat)
    (cases : List (UInt32 × String)) :
    (resolvedCases labelOperand offset cases).length = cases.length := by
  induction cases generalizing offset with
  | nil => rfl
  | cons head rest ih =>
      simp [resolvedCases, ih]

@[simp] theorem ip_resolved
    (statement : Statement)
    (address : Nat)
    (labelOperand : Nat → String → Int16)
    (functionOperand : String → UInt32) :
    (statement.resolved address labelOperand functionOperand).ip = address := by
  cases statement <;> rfl

/-- The operands of a resolved statement fit in their fields. -/
theorem resolved_fits
    (nameFits : statement.nameLength < 256)
    (fewCases : statement.caseCount ≤ maxSwitchCases)
    (address : Nat)
    (labelOperand : Nat → String → Int16)
    (functionOperand : String → UInt32)
    (functionBound : ∀ function, statement = .call function →
      (functionOperand function).toNat < 2 ^ 24) :
    (statement.resolved address labelOperand functionOperand).operands.Fits := by
  cases statement with
  | plain opcode operands =>
      cases operands with
      | u24 value =>
          simp only [resolved, Operands.stored, Operands.Fits, UInt32.toNat_ofNat']
          omega
      | enter parameters frameSize nameField =>
          exact nameFits
      | switch cases =>
          simp only [caseCount, maxSwitchCases] at fewCases
          simp only [resolved, Operands.stored, Operands.Fits]
          omega
      | _ => exact trivial
  | jump opcode label => exact trivial
  | call function => exact functionBound function rfl
  | switch cases =>
      simp only [caseCount, maxSwitchCases] at fewCases
      simp only [resolved, Operands.Fits, length_resolvedCases]
      omega

/-- A resolved statement is a well-formed instruction. -/
theorem resolved_wellFormed
    (emittable : statement.Emittable)
    (fewCases : statement.caseCount ≤ maxSwitchCases)
    (address : Nat)
    (labelOperand : Nat → String → Int16)
    (functionOperand : String → UInt32)
    (functionBound : ∀ function, statement = .call function →
      (functionOperand function).toNat < 2 ^ 24) :
    (statement.resolved address labelOperand functionOperand).WellFormed := by
  obtain ⟨layout, nameFits⟩ := emittable
  refine ⟨?_, resolved_fits nameFits fewCases address _ _ functionBound⟩
  cases statement with
  | plain opcode operands => simpa [resolved, MatchesLayout] using layout
  | jump opcode label => exact layout.symm
  | call function => rfl
  | switch cases => rfl

/-- The operands of a resolved statement lead to the given addresses. -/
structure LeadsTo (address : Nat) (labelOperand : Nat → String → Int16)
    (functionOperand : String → UInt32) (labelAt functionAt : String → Nat)
    (statement : Statement) : Prop where
  jump : ∀ opcode label, statement = .jump opcode label →
    Instruction.jumpTarget address (labelOperand 1 label) = labelAt label
  call : ∀ function, statement = .call function →
    (functionOperand function).toNat = functionAt function
  switch : ∀ cases, statement = .switch cases →
    (Instruction.switchCases address (resolvedCases labelOperand 6 cases)).map
        (fun (_, value, _, target) => (value, target)) =
      cases.map fun (value, label) => (value, labelAt label)

/-! ## Writing operands over code -/

/-- Writes bytes over others from an offset on. -/
def overwrite (bytes : Bytes) (offset : Nat) (operand : List UInt8) : Bytes :=
  operand.zipIdx.foldl
    (fun bytes (byte, index) => bytes.setIfInBounds (offset + index) byte) bytes

/-- Bytes are written over as many others. -/
theorem overwrite_append
    (before after : Bytes)
    (old new : List UInt8)
    (sameLength : old.length = new.length) :
    overwrite (before ++ old.toArray ++ after) before.size new =
      before ++ new.toArray ++ after := by
  unfold overwrite
  suffices written : ∀ (before : Bytes) (old new : List UInt8) (start offset : Nat),
      old.length = new.length → offset + start = before.size →
      (new.zipIdx start).foldl (fun (bytes : Bytes) (x : UInt8 × Nat) =>
        bytes.setIfInBounds (offset + x.2) x.1) (before ++ old.toArray ++ after) =
        before ++ new.toArray ++ after from
    written before old new 0 before.size sameLength rfl
  intro before old new start offset sameLength place
  induction new generalizing before old start with
  | nil =>
      cases old with
      | nil => rfl
      | cons byte old => simp at sameLength
  | cons byte new ih =>
      cases old with
      | nil => simp at sameLength
      | cons oldByte old =>
          have replaced : (before ++ (oldByte :: old).toArray ++ after).setIfInBounds
              (offset + start) byte = before.push byte ++ old.toArray ++ after := by
            apply Array.toList_inj.mp
            rw [place]
            simp
          have written := ih (before.push byte) old (start + 1)
            (by simpa using sameLength) (by simp; omega)
          simp only [List.zipIdx_cons, List.foldl_cons, replaced, written]
          apply Array.toList_inj.mp
          simp

@[simp] theorem size_overwrite (bytes : Bytes) (offset : Nat) (operand : List UInt8) :
    (overwrite bytes offset operand).size = bytes.size := by
  unfold overwrite
  generalize operand.zipIdx = indexed
  induction indexed generalizing bytes with
  | nil => rfl
  | cons head rest ih =>
      rw [List.foldl_cons, ih, Array.size_setIfInBounds]

/-- Writing over bytes leaves those beside as they are. -/
theorem getElem?_overwrite
    (bytes : Bytes)
    {offset index : Nat} {operand : List UInt8}
    (beside : index < offset ∨ offset + operand.length ≤ index) :
    (overwrite bytes offset operand)[index]? = bytes[index]? := by
  unfold overwrite
  have apart : ∀ entry ∈ operand.zipIdx, offset + entry.2 ≠ index := by
    intro entry member
    have bound := List.snd_lt_of_mem_zipIdx member
    omega
  generalize operand.zipIdx = indexed at apart
  induction indexed generalizing bytes with
  | nil => rfl
  | cons head rest ih =>
      obtain ⟨headApart, restApart⟩ := List.forall_mem_cons.mp apart
      rw [List.foldl_cons, ih _ restApart, Array.getElem?_setIfInBounds,
        if_neg headApart]

/-! ## References among the bytes of a statement -/

/-- References in order and apart from each other, inside of the bytes from a position on, with
zeros at their places. -/
def Placeholders (bytes : Bytes) : (position : Nat) → List Reference → Prop
  | position, [] => position ≤ bytes.size
  | position, next :: rest =>
    position ≤ next.offset ∧
      bytes.extract next.offset (next.offset + next.kind.width) =
        Array.replicate next.kind.width 0 ∧
      Placeholders bytes (next.offset + next.kind.width) rest

/-- The references of switch cases, the first one at the given offset. -/
def caseReferences : (offset : Nat) → List (UInt32 × String) → List Reference
  | _, [] => []
  | offset, (_, label) :: rest => ⟨offset, .relative, label⟩ :: caseReferences (offset + 6) rest

/-- The bytes of switch cases with zeros for the operands. -/
def emptyCaseBytes : List (UInt32 × String) → List UInt8
  | [] => []
  | (value, _) :: rest => Bytes.ofUInt32 value ++ [0, 0] ++ emptyCaseBytes rest

theorem fragment_switch_references (cases : List (UInt32 × String)) :
    (switch cases).fragment.references = caseReferences 6 cases := by
  suffices general : ∀ (offset : Nat) (cases : List (UInt32 × String)),
      cases.mapIdx (fun index (_, label) =>
        (⟨offset + 6 * index, .relative, label⟩ : Reference)) = caseReferences offset cases from
    general 6 cases
  intro offset cases
  induction cases generalizing offset with
  | nil => rfl
  | cons head rest ih =>
      rw [List.mapIdx_cons, caseReferences, ← ih (offset + 6)]
      have shifted : ∀ index, offset + 6 * (index + 1) = offset + 6 + 6 * index := by
        intro index
        omega
      simp only [Nat.mul_zero, Nat.add_zero, shifted]

theorem fragment_switch_bytes (cases : List (UInt32 × String)) :
    (switch cases).fragment.bytes =
      #[Opcode.switch.toByte, UInt8.ofNat cases.length] ++ (emptyCaseBytes cases).toArray := by
  have caseBytes : (cases.map fun (value, _) => (value, (0 : Int16))).flatMap
      Operands.caseBytes = emptyCaseBytes cases := by
    induction cases with
    | nil => rfl
    | cons head rest ih =>
        rw [List.map_cons, List.flatMap_cons, ih]
        rfl
  simp [fragment, Operands.toBytes, caseBytes]

/-- The bytes before the operand of a switch case. -/
theorem size_append_ofUInt32 (before : Bytes) (value : UInt32) :
    (before ++ (Bytes.ofUInt32 value).toArray).size = before.size + 4 := by
  simp [Bytes.ofUInt32]

theorem append_emptyCaseBytes
    (before : Bytes)
    (value : UInt32)
    (label : String)
    (rest : List (UInt32 × String)) :
    before ++ (emptyCaseBytes ((value, label) :: rest)).toArray =
      before ++ (Bytes.ofUInt32 value).toArray ++ [0, 0].toArray ++
        (emptyCaseBytes rest).toArray := by
  apply Array.toList_inj.mp
  simp [emptyCaseBytes]

theorem placeholders_cases
    (before : Bytes)
    (cases : List (UInt32 × String))
    (position : Nat)
    (reached : position ≤ before.size) :
    Placeholders (before ++ (emptyCaseBytes cases).toArray) position
      (caseReferences (before.size + 4) cases) := by
  induction cases generalizing before position with
  | nil => simpa [Placeholders, caseReferences, emptyCaseBytes] using reached
  | cons head rest ih =>
      obtain ⟨value, label⟩ := head
      have operandStart := size_append_ofUInt32 before value
      have zeros := extract_append_middle (before ++ (Bytes.ofUInt32 value).toArray)
        [0, 0].toArray (emptyCaseBytes rest).toArray
      have later := ih
        (before ++ (Bytes.ofUInt32 value).toArray ++ [0, 0].toArray) (before.size + 4 + 2)
        (by rw [Array.size_append, operandStart]; exact Nat.le_refl _)
      rw [Array.size_append, operandStart] at later
      rw [operandStart] at zeros
      rw [append_emptyCaseBytes]
      exact ⟨Nat.le_trans reached (Nat.le_add_right _ 4), zeros, later⟩

/-- The references of a statement stand among its bytes in order, with zeros at their places. -/
theorem fragment_placeholders (statement : Statement) :
    Placeholders statement.fragment.bytes 0 statement.fragment.references := by
  cases statement with
  | plain opcode operands => exact Nat.zero_le _
  | jump opcode label => exact ⟨Nat.zero_le _, rfl, Nat.le_refl 3⟩
  | call function => exact ⟨Nat.zero_le _, rfl, Nat.le_refl 4⟩
  | switch cases =>
      rw [fragment_switch_references, fragment_switch_bytes]
      exact placeholders_cases #[Opcode.switch.toByte, UInt8.ofNat cases.length] cases 0
        (Nat.zero_le _)

/-! ## Resolving references -/

/-- The operand of a reference. -/
def operandBytes (labelOperand : Nat → String → Int16) (functionOperand : String → UInt32)
    (reference : Reference) : List UInt8 :=
  match reference.kind with
  | .relative => Bytes.ofUInt16 (labelOperand reference.offset reference.target).toUInt16
  | .absolute => Bytes.ofUInt24 (functionOperand reference.target)

/-- Writes the operands of references over bytes. -/
def fillIn (labelOperand : Nat → String → Int16) (functionOperand : String → UInt32)
    (bytes : Bytes) (references : List Reference) : Bytes :=
  references.foldl
    (fun bytes reference =>
      overwrite bytes reference.offset (operandBytes labelOperand functionOperand reference))
    bytes

@[simp] theorem size_fillIn
    (labelOperand : Nat → String → Int16)
    (functionOperand : String → UInt32)
    (bytes : Bytes)
    (references : List Reference) :
    (fillIn labelOperand functionOperand bytes references).size = bytes.size := by
  unfold fillIn
  induction references generalizing bytes with
  | nil => rfl
  | cons head rest ih =>
      rw [List.foldl_cons, ih, size_overwrite]

theorem length_operandBytes
    (labelOperand : Nat → String → Int16)
    (functionOperand : String → UInt32)
    (reference : Reference) :
    (operandBytes labelOperand functionOperand reference).length = reference.kind.width := by
  obtain ⟨offset, kind, target⟩ := reference
  cases kind <;> rfl

/-- A byte of an instruction that belongs to none of the references. -/
def Outside (references : List Reference) (index : Nat) : Prop :=
  ∀ reference ∈ references,
    index < reference.offset ∨ reference.offset + reference.kind.width ≤ index

/-- Resolving references leaves the other bytes as they are. -/
theorem getElem?_fillIn
    (labelOperand : Nat → String → Int16)
    (functionOperand : String → UInt32)
    (bytes : Bytes)
    {references : List Reference} {index : Nat}
    (outside : Outside references index) :
    (fillIn labelOperand functionOperand bytes references)[index]? = bytes[index]? := by
  unfold fillIn
  induction references generalizing bytes with
  | nil => rfl
  | cons head rest ih =>
      obtain ⟨beside, restOutside⟩ := List.forall_mem_cons.mp outside
      rw [List.foldl_cons, ih _ restOutside]
      apply getElem?_overwrite
      rwa [length_operandBytes]

theorem fillIn_cases
    (labelOperand : Nat → String → Int16)
    (functionOperand : String → UInt32)
    (before : Bytes)
    (cases : List (UInt32 × String)) :
    fillIn labelOperand functionOperand (before ++ (emptyCaseBytes cases).toArray)
        (caseReferences (before.size + 4) cases) =
      before ++ ((resolvedCases labelOperand (before.size + 4) cases).flatMap
        Operands.caseBytes).toArray := by
  induction cases generalizing before with
  | nil => rfl
  | cons head rest ih =>
      obtain ⟨value, label⟩ := head
      have operandStart := size_append_ofUInt32 before value
      have written := overwrite_append (before ++ (Bytes.ofUInt32 value).toArray)
        (emptyCaseBytes rest).toArray [0, 0]
        (Bytes.ofUInt16 (labelOperand (before.size + 4) label).toUInt16) rfl
      have later := ih (before ++ (Bytes.ofUInt32 value).toArray ++
        (Bytes.ofUInt16 (labelOperand (before.size + 4) label).toUInt16).toArray)
      rw [Array.size_append, operandStart] at later
      rw [operandStart] at written
      rw [append_emptyCaseBytes, caseReferences, fillIn, List.foldl_cons]
      simp only [operandBytes]
      rw [written]
      refine later.trans ?_
      apply Array.toList_inj.mp
      simp [resolvedCases, Operands.caseBytes, Bytes.ofUInt16]

/-- Writing the operands of its references over the bytes of a statement gives the bytes of the
resolved instruction. -/
theorem fillIn_fragment
    (statement : Statement)
    (address : Nat)
    (labelOperand : Nat → String → Int16)
    (functionOperand : String → UInt32) :
    fillIn labelOperand functionOperand statement.fragment.bytes statement.fragment.references =
      (statement.resolved address labelOperand functionOperand).bytes := by
  cases statement with
  | plain opcode operands => simp [fillIn, fragment, resolved, Instruction.bytes]
  | jump opcode label => rfl
  | call function => rfl
  | switch cases =>
      have filled := fillIn_cases labelOperand functionOperand
        #[Opcode.switch.toByte, UInt8.ofNat cases.length] cases
      rw [fragment_switch_references, fragment_switch_bytes]
      refine filled.trans ?_
      simp [resolved, Instruction.bytes, Operands.toBytes]

section Resolved

variable (statement : Statement) (address : Nat) (labelOperand : Nat → String → Int16)
  (functionOperand : String → UInt32)

/-- A resolved instruction takes as many bytes as its statement. -/
theorem size_resolved :
    (statement.resolved address labelOperand functionOperand).size =
      statement.fragment.bytes.size := by
  rw [Instruction.size, ← fillIn_fragment, size_fillIn]

theorem size_fragment_pos : 0 < statement.fragment.bytes.size := by
  have positive := (statement.resolved 0 (fun _ _ => 0) (fun _ => 0)).size_pos
  rwa [size_resolved] at positive

end Resolved

/-- A statement can be encoded unless it has too many cases. -/
theorem encode_eq_ok_iff {fragment : Fragment} :
    statement.encode = .ok fragment ↔
      statement.caseCount ≤ maxSwitchCases ∧ statement.fragment = fragment := by
  unfold encode
  split
  · rename_i tooMany
    simp only [reduceCtorEq, false_iff, not_and]
    omega
  · rename_i fewCases
    simp only [Except.ok.injEq, iff_and_self]
    omega

end Statement

/-- Instructions whose operands fit in their fields are short enough to be placed. -/
theorem Instruction.size_lt
    {instruction : Instruction}
    (fits : instruction.operands.Fits) :
    instruction.size < instructionLimit := by
  obtain ⟨ip, opcode, operands⟩ := instruction
  rw [size_eq]
  unfold instructionLimit pageLength
  cases operands with
  | enter parameters frameSize nameField =>
      simp only [Operands.Fits] at fits
      simp [Operands.toBytes, Bytes.ofUInt16]
      omega
  | switch cases =>
      simp only [Operands.Fits] at fits
      simp [Operands.toBytes, length_flatMap_caseBytes, -List.length_flatMap]
      omega
  | _ => simp [Operands.toBytes, Bytes.ofUInt16, Bytes.ofUInt24, Bytes.ofUInt32]

/-- A statement with an encoding is short enough to be placed, whatever its opcode. -/
theorem Statement.size_fragment_lt
    {statement : Statement}
    (nameFits : statement.nameLength < 256)
    (fewCases : statement.caseCount ≤ maxSwitchCases) :
    statement.fragment.bytes.size < instructionLimit := by
  have short := Instruction.size_lt (resolved_fits nameFits fewCases 0 (fun _ _ => 0)
    (fun _ => 0) (fun _ _ => by decide))
  rwa [size_resolved] at short

end ScriptBytecode
