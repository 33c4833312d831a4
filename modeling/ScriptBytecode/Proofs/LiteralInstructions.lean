import ScriptBytecode.Proofs.EmittedStreams
import ScriptBytecode.Proofs.NativeCalls
import ScriptBytecode.Proofs.NumberText
import ScriptBytecode.Proofs.ReachableArenas
import ScriptBytecode.Proofs.WrittenFunctions

/-!
# Instructions in literal text

An instruction is listed literally if its text has offsets and addresses in place of labels and
function names.  Written to any open function of a unit that took in the same natives first, this
text appends the bytes of the instruction and refers to nothing.
-/

namespace ScriptBytecode

/-! ## Names that are text -/

/-- Characters that fit are not cut. -/
theorem Utf8.truncate_eq_self
    {limit : Nat} {chars : List Char}
    (fits : (encodeChars chars).length ≤ limit) :
    truncate limit chars = chars :=
  (truncate_isPrefix limit chars).eq_of_length_le
    (length_le_length_truncate (List.prefix_refl chars) fits)

namespace Operands

/-- A name field that is empty, or that holds text with a terminator. -/
def HoldsText (nameField : List UInt8) : Prop :=
  nameField = [] ∨
    ∃ text, nameField = text ++ [0] ∧ ByteArray.IsValidUTF8 ⟨text.toArray⟩

/-- A field that holds text is the field of a name. -/
theorem HoldsText.exists_nameFieldOf
    {nameField : List UInt8}
    (holdsText : HoldsText nameField)
    (short : nameField.length < 256) :
    ∃ name, nameField = nameFieldOf name := by
  rcases holdsText with rfl | ⟨text, rfl, ⟨chars, isText⟩⟩
  · exact ⟨Option.none, rfl⟩
  · have encoded : text = Utf8.encodeChars chars := by
      have sameBytes := congrArg (fun bytes : ByteArray => bytes.data.toList) isText
      simpa [Utf8.encodeChars, List.utf8Encode] using sameBytes
    subst encoded
    rw [List.length_append, List.length_singleton] at short
    have fits : (Utf8.encodeChars chars).length ≤ maxNameBytes := by
      unfold maxNameBytes
      omega
    refine ⟨some (String.ofList chars), ?_⟩
    rw [nameFieldOf, String.toList_ofList, Utf8.truncate_eq_self fits, Utf8.encodeChars]

end Operands

/-- An instruction whose text has all of its operands: the function it calls goes by its address,
its native is in the table, its name field holds text, and its number is no NaN. -/
structure Instruction.Literal (names : AddressTable String) (natives : Array UInt64)
    (instruction : Instruction) : Prop where
  unnamed : ∀ target, instruction.opcode = .call → instruction.operands = .u24 target →
    names.get? target.toNat = none
  native : ∀ counts index, instruction.operands = .native counts index →
    index.toNat < natives.size
  name : ∀ parameters frameSize nameField,
    instruction.operands = .enter parameters frameSize nameField → Operands.HoldsText nameField
  number : ∀ value, instruction.operands = .f32 value → value.isNaN = false

theorem Instruction.Literal.listable
    {names : AddressTable String} {natives : Array UInt64} {instruction : Instruction}
    (literal : instruction.Literal names natives)
    (wellFormed : instruction.WellFormed) :
    instruction.Listable natives where
  wellFormed := wellFormed
  name := by
    intro parameters frameSize nameField isEnter
    have short := wellFormed.fits
    rw [isEnter] at short
    exact (literal.name parameters frameSize nameField isEnter).exists_nameFieldOf short
  native := literal.native

/-! ## Sessions -/

namespace CodeUnit

/-- Requests that all succeed lead where they lead one after the other. -/
theorem resume_eq_of_forM
    {codeUnit next : CodeUnit} {requests : List UnitRequest}
    (ran : requests.forM UnitRequest.run codeUnit = .ok () next) :
    codeUnit.resume requests = next := by
  induction requests generalizing codeUnit with
  | nil =>
      cases ran
      rfl
  | cons request rest ih =>
      simp only [List.forM, bind, EStateM.bind] at ran
      split at ran
      · rename_i middle isMiddle
        rw [resume, List.foldl_cons, isMiddle]
        exact ih ran
      · cases ran

/-- Natives that a session takes in first have their indices in it ever after. -/
theorem keepsHashes_afterRequests
    {natives : Array UInt64}
    (distinct : natives.toList.Nodup)
    (few : natives.size ≤ maxNatives)
    (requests : List UnitRequest) :
    KeepsHashes natives
      (afterRequests (natives.toList.map UnitRequest.nativeIndex ++ requests)).natives := by
  have nodup : (({} : CodeUnit).natives.toList ++ natives.toList).Nodup := by simpa using distinct
  obtain ⟨middle, added, -, isNatives, -⟩ :=
    forM_nativeIndex_eq indexed_empty nodup (by simpa using few)
  have isMiddle : afterRequests (natives.toList.map UnitRequest.nativeIndex) = middle := by
    apply resume_eq_of_forM
    rw [List.forM_eq_forM, List.forM_map]
    exact added
  have sameNatives : middle.natives = natives := by simpa using isNatives
  rw [afterRequests_append, isMiddle]
  have keeps := keepsHashes_resume middle requests
  rwa [sameNatives] at keeps

/-- A code unit whose open function, if there is one, has a reachable arena. -/
def OpensReachable (codeUnit : CodeUnit) : Prop :=
  ∀ function, codeUnit.current = some function → function.arena.Reachable

namespace OpensReachable

variable {codeUnit : CodeUnit}

/-- Whatever changes, the open function is left with a reachable arena. -/
theorem change
    {allowed : Statement → Prop} {next : CodeUnit}
    (opens : codeUnit.OpensReachable)
    (change : Change allowed codeUnit next) :
    next.OpensReachable := by
  cases change with
  | beginFunction name =>
      rintro _ ⟨⟩
      exact .empty
  | label name function isOpen =>
      rintro _ ⟨⟩
      exact (opens function isOpen).call (.addLabel name)
  | emit statement mayEmit function isOpen =>
      rintro _ ⟨⟩
      exact (opens function isOpen).call
        (.push ⟨statement.fragment.bytes, statement.fragment.references, []⟩)
  | addNative hash => exact opens
  | endFunction function => rintro _ ⟨⟩

/-- The open function of a session has a reachable arena. -/
theorem afterRequests (requests : List UnitRequest) :
    (afterRequests requests).OpensReachable := by
  have start : OpensReachable {} := by
    rintro _ ⟨⟩
  exact List.foldlRecOn requests _ start fun codeUnit opens request _ =>
    (request.changes codeUnit).keep change opens

end OpensReachable
end CodeUnit

/-- An instruction that is appended comes after all others, with the labels that wait for it. -/
theorem Arena.Reachable.entries_push
    {arena : Arena}
    (reachable : arena.Reachable)
    (bytes : Bytes) :
    (arena.push ⟨bytes, [], []⟩).2.entries = arena.entries.push ⟨bytes, [], arena.pending⟩ := by
  obtain ⟨live, represents⟩ := reachable.exists_represents
  rw [(represents.push ⟨bytes, [], []⟩).1.entries_eq, represents.entries_eq]
  simp

namespace Listing

/-! ## Literal text -/

section Literal

variable {names : AddressTable String} {natives : Array UInt64} {instruction : Instruction}

/-- An order keeps its meaning while the table of natives grows. -/
theorem Order.Means.keep
    {order : Order} {statement : Statement}
    (means : order.Means natives statement)
    {others : Array UInt64}
    (keeps : CodeUnit.KeepsHashes natives others) :
    order.Means others statement := by
  cases order with
  | statement other => exact means
  | native parameters returns hash =>
      obtain ⟨index, found, isCall⟩ := means
      exact ⟨index, keeps index.toNat hash found, isCall⟩

/-- Literal text stands for the operands themselves. -/
theorem listedStatement_of_literal (literal : instruction.Literal names natives) :
    listedStatement false names instruction = .plain instruction.opcode instruction.operands := by
  obtain ⟨ip, opcode, operands⟩ := instruction
  cases operands with
  | u24 target =>
      by_cases isCall : opcode = .call
      · have unnamed := literal.unnamed target isCall rfl
        simp [listedStatement, isCall, unnamed]
      · simp [listedStatement, isCall]
  | _ => rfl

/-- Literal text is read as an order for a statement that has the bytes of the instruction.  A
switch without cases is read as one with labels, since no case tells otherwise. -/
theorem exists_order_of_literal
    (wellFormed : instruction.WellFormed)
    (literal : instruction.Literal names natives) :
    ∃ texts order statement, operandTexts false names natives instruction = .ok texts ∧
      readInstruction instruction.opcode.mnemonic texts = .ok order ∧
      order.Means natives statement ∧ statement.caseCount ≤ maxSwitchCases ∧
      statement.fragment = ⟨instruction.bytes, []⟩ := by
  by_cases noCases : instruction.operands = .switch []
  · obtain ⟨ip, opcode, operands⟩ := instruction
    obtain rfl : operands = .switch [] := noCases
    obtain rfl := Opcode.eq_of_layout_switch wellFormed.layout.symm
    exact ⟨[], .statement (.switch []), .switch [], rfl, readInstruction_eq rfl, rfl,
      Nat.zero_le _, rfl⟩
  · have notIntegers : ∀ target name, instruction.opcode = .call →
        instruction.operands = .u24 target → names.get? target.toNat = some name →
          Text.integer? name = none := by
      intro target name isCall isTarget found
      rw [literal.unnamed target isCall isTarget] at found
      cases found
    have readsBack : ReadsBack false names natives instruction :=
      readsBack_of_listable (literal.listable wellFormed)
        (fun value isNumber => readFloat_text (literal.number value isNumber)) notIntegers
        (fun _ => noCases)
    obtain ⟨texts, order, isTexts, isRead, means⟩ := readsBack
    have encodable := (listedAs_listedStatement false names wellFormed).encodable wellFormed
    rw [listedStatement_of_literal literal] at means encodable
    exact ⟨texts, order, _, isTexts, isRead, means, encodable.fewCases, rfl⟩

end Literal

/-- An item that appends the given bytes to the open function of a unit, after its other
instructions, and changes nothing else. -/
structure Appends (item : Item) (bytes : Bytes) (codeUnit : CodeUnit)
    (function : FunctionCode) : Prop where
  written : writeItem item codeUnit =
    .ok () (codeUnit.opened function.name (function.arena.push ⟨bytes, [], []⟩).2)
  entries : (function.arena.push ⟨bytes, [], []⟩).2.entries =
    function.arena.entries.push ⟨bytes, [], function.arena.pending⟩

/-- The literal text of an instruction appends the bytes it was decoded from, without references,
to every open function of a unit that took in the natives first. -/
theorem appends_listInstruction
    {code : Bytes} {ip : Nat} {instruction : Instruction}
    (decoded : Instruction.decode code ip = .ok instruction)
    {natives : Array UInt64}
    (distinct : natives.toList.Nodup)
    (few : natives.size ≤ maxNatives)
    {names : AddressTable String}
    (literal : instruction.Literal names natives)
    {requests : List UnitRequest} {codeUnit : CodeUnit}
    (session : codeUnit =
      CodeUnit.afterRequests (natives.toList.map UnitRequest.nativeIndex ++ requests))
    {function : FunctionCode}
    (isOpen : codeUnit.current = some function) :
    ∃ item, listInstruction false names natives instruction = .ok item ∧
      Appends item (code.extract ip instruction.stop) codeUnit function := by
  obtain ⟨-, wellFormed, -, isPart⟩ := Instruction.of_decode decoded
  obtain ⟨texts, order, statement, isTexts, isRead, means, fewCases, isFragment⟩ :=
    exists_order_of_literal wellFormed literal
  have indexed : codeUnit.Indexed := session ▸ CodeUnit.Indexed.afterRequests _
  have keeps : CodeUnit.KeepsHashes natives codeUnit.natives :=
    session ▸ CodeUnit.keepsHashes_afterRequests distinct few requests
  have opens : codeUnit.OpensReachable := session ▸ CodeUnit.OpensReachable.afterRequests _
  have isOpened : codeUnit.opened function.name function.arena = codeUnit := by
    rw [CodeUnit.opened, ← isOpen]
  refine ⟨.instruction (some instruction.ip) instruction.opcode.mnemonic texts, ?_, ?_, ?_⟩
  · rw [listInstruction, isTexts]
    rfl
  · have wrote := writeOrder_opened function.name function.arena indexed (means.keep keeps) fewCases
    rw [isOpened, isFragment, ← isPart] at wrote
    unfold writeItem
    simp only [isRead]
    exact wrote
  · exact (opens function isOpen).entries_push _

/-- A call of the second native, whose hash has its highest bit set, after a label. -/
theorem appends_listInstruction_native :
    let natives : Array UInt64 := #[7, 0xFEDCBA9876543210]
    let code : Bytes := #[Opcode.nop.toByte, Opcode.native.toByte, 0x0D, 0, 1, 0xFF]
    let instruction : Instruction := ⟨1, .native, .native 0x0D 1⟩
    let function : FunctionCode := ⟨"main", { pending := ["start"] }⟩
    let codeUnit := CodeUnit.afterRequests (natives.toList.map UnitRequest.nativeIndex ++
      [.unitCall (.beginFunction "main"), .unitCall (.label "start")])
    Instruction.decode code 1 = .ok instruction ∧ natives.toList.Nodup ∧
      natives.size ≤ maxNatives ∧ instruction.Literal (.empty 0 0) natives ∧
      codeUnit.current = some function ∧
      ∃ item, listInstruction false (.empty 0 0) natives instruction = .ok item ∧
        Appends item #[Opcode.native.toByte, 0x0D, 0, 1] codeUnit function := by
  intro natives code instruction function codeUnit
  have decoded : Instruction.decode code 1 = .ok instruction := by decide +kernel
  have isPart : code.extract 1 instruction.stop = #[Opcode.native.toByte, 0x0D, 0, 1] := by
    decide +kernel
  have distinct : natives.toList.Nodup := by decide
  have few : natives.size ≤ maxNatives := by decide
  have literal : instruction.Literal (.empty 0 0) natives := by
    refine ⟨?_, ?_, ?_, ?_⟩
    · rintro target ⟨⟩
    · rintro counts index ⟨⟩
      decide
    · rintro parameters frameSize nameField ⟨⟩
    · rintro value ⟨⟩
  have isOpen : codeUnit.current = some function := by decide +kernel
  rw [← isPart]
  exact ⟨decoded, distinct, few, literal, isOpen,
    appends_listInstruction decoded distinct few literal rfl isOpen⟩

end Listing
end ScriptBytecode
