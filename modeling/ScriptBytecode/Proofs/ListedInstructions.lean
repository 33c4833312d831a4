import Mathlib.Data.List.TakeDrop
import ScriptBytecode.Listing.OfScript
import ScriptBytecode.Proofs.Answers
import ScriptBytecode.Proofs.IntegerText
import ScriptBytecode.Proofs.Statements
import ScriptBytecode.Proofs.Utf8Text

/-!
# Reading back listed instructions

The texts of the operands of an instruction are read as a statement for that instruction: with
labels or function names for the targets that have them, and with the operands themselves for the
rest.
-/

namespace ScriptBytecode

/-! ## Mnemonics -/

namespace Opcode

variable {opcode : Opcode}

/-- Opcodes whose mnemonics differ from each other and from some that were seen before. -/
inductive DistinctAfter : (seen : List (List Char)) → List Opcode → Prop
  | nil {seen : List (List Char)} : DistinctAfter seen []
  | cons
      {seen : List (List Char)}
      {chars : List Char}
      {opcode : Opcode}
      {rest : List Opcode}
      (here : opcode.mnemonic = String.ofList chars)
      (fresh : chars ∉ seen)
      (later : DistinctAfter (chars :: seen) rest) :
      DistinctAfter seen (opcode :: rest)

theorem distinctAfter_all : DistinctAfter [] all.toList := by
  dsimp only [all]
  repeat first | exact .nil | refine .cons rfl (by decide +kernel) ?_

theorem DistinctAfter.find?_eq_some
    {seen : List (List Char)} {opcodes : List Opcode}
    (distinct : DistinctAfter seen opcodes)
    (member : opcode ∈ opcodes) :
    opcode.mnemonic.toList ∉ seen ∧
      opcodes.find? (·.mnemonic == opcode.mnemonic) = some opcode := by
  induction distinct with
  | nil => cases member
  | @cons seen chars head rest here fresh later ih =>
      rcases List.mem_cons.mp member with rfl | inRest
      · rw [here, String.toList_ofList]
        exact ⟨fresh, by simp [here]⟩
      · obtain ⟨notSeen, found⟩ := ih inRest
        rw [List.mem_cons, not_or] at notSeen
        have different : head.mnemonic ≠ opcode.mnemonic := by
          intro same
          rw [← same, here, String.toList_ofList] at notSeen
          exact notSeen.1 rfl
        rw [List.find?_cons_of_neg (by simpa using different)]
        exact ⟨notSeen.2, found⟩

theorem eq_of_layout_native (layout : opcode.layout = .native) :
    opcode = .native := by
  cases opcode <;> first | rfl | cases layout

theorem eq_of_layout_enter (layout : opcode.layout = .enter) :
    opcode = .enter := by
  cases opcode <;> first | rfl | cases layout

theorem eq_of_layout_switch (layout : opcode.layout = .switch) :
    opcode = .switch := by
  cases opcode <;> first | rfl | cases layout

/-- Mnemonics have no blanks and no letters in lower case. -/
theorem mnemonic_spelling (opcode : Opcode) :
    ∃ chars, opcode.mnemonic = String.ofList chars ∧
      ∀ char ∈ chars, Text.isBlank char = false ∧ char.toUpper = char := by
  have spelled : ∃ chars, opcode.mnemonic = String.ofList chars ∧
      chars.all (fun char => !Text.isBlank char && char.toUpper == char) = true := by
    cases opcode <;> exact ⟨_, rfl, by decide⟩
  obtain ⟨chars, isMnemonic, all⟩ := spelled
  refine ⟨chars, isMnemonic, fun char member => ?_⟩
  simpa using List.all_eq_true.mp all char member

theorem mem_all (opcode : Opcode) : opcode ∈ all := by
  have found := ofByte?_toByte opcode
  unfold ofByte? at found
  exact Array.mem_of_getElem? found

/-- The mnemonic of an opcode is found there and nowhere else. -/
theorem ofMnemonic?_mnemonic (opcode : Opcode) :
    ofMnemonic? opcode.mnemonic = some opcode := by
  have found := (distinctAfter_all.find?_eq_some (Array.mem_toList_iff.mpr opcode.mem_all)).2
  rwa [Array.find?_toList] at found

/-- A mnemonic is read as its opcode. -/
theorem read_mnemonic (opcode : Opcode) : read opcode.mnemonic = .ok opcode := by
  have found := opcode.ofMnemonic?_mnemonic
  obtain ⟨chars, spelled, spelling⟩ := opcode.mnemonic_spelling
  have upper : chars.map Char.toUpper = chars.map id :=
    List.map_congr_left fun char isChar => (spelling char isChar).2
  rw [spelled] at found
  unfold read
  rw [spelled, Text.trim_ofList (Text.unpadded_of_forall fun char isChar =>
    (spelling char isChar).1), String.toList_ofList, upper, List.map_id]
  simp only [found]

end Opcode

/-- An instruction that can be listed so that it is read back: it is well formed, its name field is
that of a name, and its native is in the table. -/
structure Instruction.Listable (natives : Array UInt64) (instruction : Instruction) : Prop where
  wellFormed : instruction.WellFormed
  name : ∀ parameters frameSize nameField,
    instruction.operands = .enter parameters frameSize nameField →
      ∃ name, nameField = Operands.nameFieldOf name
  native : ∀ counts index, instruction.operands = .native counts index →
    index.toNat < natives.size

namespace Listing

open Text

/-! ## Reading numbers -/

/-- An integer of a range is read from its text. -/
theorem readInteger_eq
    {range : IntegerRange} {text : String} {value : Int}
    (isInteger : integer? text = some value)
    (notBelow : range.least ≤ value)
    (notAbove : value ≤ range.greatest) :
    readInteger range text = .ok value := by
  rw [readInteger, isInteger]
  exact if_pos (decide_eq_true ⟨notBelow, notAbove⟩)

theorem readUInt8_toString (value : UInt8) : readUInt8 (toString value.toNat) = .ok value := by
  have bound := value.toNat_lt
  rw [readUInt8, readInteger_eq (integer?_toString (by omega))
    (by simp only [IntegerRange.least]; omega) (by simp only [IntegerRange.greatest]; omega)]
  simp [Except.map]

theorem readUInt16_toString (value : UInt16) :
    readUInt16 (toString value.toNat) = .ok value := by
  have bound := value.toNat_lt
  rw [readUInt16, readInteger_eq (integer?_toString (by omega))
    (by simp only [IntegerRange.least]; omega) (by simp only [IntegerRange.greatest]; omega)]
  simp [Except.map]

/-- A 24-bit operand is read from any text of its value. -/
theorem readUInt24_eq
    {text : String} {value : UInt32}
    (isInteger : integer? text = some (value.toNat : Int)) :
    readUInt24 text = .ok value := by
  have bound := value.toNat_lt
  rw [readUInt24, readInteger_eq isInteger
    (by simp only [IntegerRange.least]; omega) (by simp only [IntegerRange.greatest]; omega)]
  simp [Except.map]

theorem readInt16_toString (value : Int16) : readInt16 (toString value.toInt) = .ok value := by
  have notBelow := value.le_toInt
  have notAbove := value.toInt_lt
  rw [readInt16, readInteger_eq (integer?_toString_int (by omega) (by omega))
    (by simp only [IntegerRange.least]; omega) (by simp only [IntegerRange.greatest]; omega)]
  simp [Except.map]

theorem readWord32_toString (value : UInt32) :
    readWord32 (toString value.toNat) = .ok value := by
  have bound := value.toNat_lt
  have wrapped : ((value.toNat : Int) % 0x100000000).toNat = value.toNat := by omega
  rw [readWord32, integer?_toString (by omega)]
  simp only
  rw [if_pos (by omega), wrapped]
  simp

theorem readHash_hex (hash : UInt64) : readHash ("0x" ++ hex 16 hash.toNat) = .ok hash := by
  rw [readHash, word?_hex hash.toNat_lt]
  simp

/-! ## Switch cases -/

theorem splitFirst?_ofList
    {separator : Char} {before : List Char}
    (notBefore : separator ∉ before)
    (after : List Char) :
    splitFirst? separator (String.ofList (before ++ separator :: after)) =
      some (String.ofList before, String.ofList after) := by
  have others : ∀ char ∈ before, decide (char ≠ separator) = true := by
    intro char member
    rw [decide_eq_true_eq]
    rintro rfl
    exact notBefore member
  rw [splitFirst?, String.toList_ofList, List.span_eq_takeWhile_dropWhile,
    List.takeWhile_append_of_pos others, List.dropWhile_append_of_pos others,
    List.takeWhile_cons_of_neg (by simp), List.dropWhile_cons_of_neg (by simp), List.append_nil]

/-- A switch case is read as its value and the text of its target. -/
theorem readCase_eq
    (value : UInt32)
    {target : String}
    (unpadded : Unpadded target.toList) :
    readCase (toString value.toNat ++ ":" ++ target) = .ok (value, target) := by
  have isText : toString value.toNat ++ ":" ++ target =
      String.ofList (Nat.toDigits 10 value.toNat ++ ':' :: target.toList) := by
    apply String.toList_injective
    simp
  have trimmed := trim_ofList unpadded
  rw [String.ofList_toList] at trimmed
  rw [readCase, isText, splitFirst?_ofList ((digits_toDigits _).not_mem ':' (by simp))]
  simp only [String.ofList_toList, ← Nat.toString_eq_ofList_toDigits, readWord32_toString, trimmed]
  rfl

theorem unpadded_toString_int (value : Int) : Unpadded (toString value).toList := by
  rw [toString_int_eq, String.toList_ofList]
  apply unpadded_of_forall
  rw [List.forall_mem_append]
  refine ⟨?_, (digits_toDigits _).notBlank⟩
  split
  · exact List.forall_mem_singleton.mpr (by decide)
  · simp

/-- A switch that is listed with labels. -/
theorem readSwitch_labels (cases : List (UInt32 × Nat)) :
    readSwitch (cases.map fun (value, target) =>
        toString value.toNat ++ ":" ++ labelName target) =
      .ok (.switch (cases.map fun (value, target) => (value, labelName target))) := by
  have texts : (cases.map fun (value, target) =>
      toString value.toNat ++ ":" ++ labelName target).mapM readCase =
        .ok (cases.map fun (value, target) => (value, labelName target)) := by
    rw [List.mapM_map]
    refine mapM_eq_ok fun ⟨value, target⟩ _ => ?_
    simp only [Function.comp_apply, readCase_eq value (unpadded_labelName target)]
  rw [readSwitch, texts]
  cases cases with
  | nil => rfl
  | cons case rest => simp [bind, Except.bind, integer?_labelName, pure, Except.pure]

/-- The targets of a switch are offsets if all of them are numbers. -/
theorem readSwitch_of_integers
    {texts : List String} {read : List (UInt32 × String)} {offsets : List (UInt32 × Int16)}
    (isRead : texts.mapM readCase = .ok read)
    (notEmpty : read ≠ [])
    (integers : ∀ case ∈ read, (integer? case.2).isSome)
    (isOffsets : read.mapM (fun case => (readInt16 case.2).map (Prod.mk case.1)) = .ok offsets) :
    readSwitch texts = .ok (.switchOffsets offsets) := by
  unfold readSwitch
  rw [isRead]
  simp only [bind, Except.bind]
  rw [if_pos]
  · exact congrArg (Except.map Statement.switchOffsets) isOffsets
  · rw [Bool.and_eq_true]
    exact ⟨by simpa using notEmpty, List.all_eq_true.mpr integers⟩

/-- A switch that is listed with offsets. -/
theorem readSwitch_offsets
    {cases : List (UInt32 × Int16)}
    (notEmpty : cases ≠ []) :
    readSwitch (cases.map fun (value, offset) =>
        toString value.toNat ++ ":" ++ toString offset.toInt) =
      .ok (.switchOffsets cases) := by
  have texts : (cases.map fun case =>
      toString case.1.toNat ++ ":" ++ toString case.2.toInt).mapM readCase =
        .ok (cases.map fun case => (case.1, toString case.2.toInt)) := by
    rw [List.mapM_map]
    exact mapM_eq_ok fun case _ => readCase_eq case.1 (unpadded_toString_int case.2.toInt)
  refine readSwitch_of_integers texts (by simpa using notEmpty) ?_ ?_
  · rw [List.forall_mem_map]
    intro case _
    have notBelow := case.2.le_toInt
    have notAbove := case.2.toInt_lt
    rw [integer?_toString_int (by omega) (by omega)]
    rfl
  · rw [List.mapM_map]
    refine (mapM_eq_ok fun case _ => ?_).trans (congrArg Except.ok (List.map_id cases))
    simp only [Function.comp_apply, readInt16_toString]
    rfl

/-! ## Instructions -/

/-- What the texts of an instruction are read as; `named` tells whether its targets have labels. -/
def listedStatement (named : Bool) (names : AddressTable String) (instruction : Instruction) :
    Statement :=
  match instruction.operands with
  | .rel16 offset =>
    if named then
      .jump instruction.opcode (labelName (Instruction.jumpTarget instruction.ip offset))
    else .plain instruction.opcode (.rel16 offset)
  | .u24 value =>
    match if instruction.opcode = .call then names.get? value.toNat else none with
    | some name => .call name
    | none => .plain instruction.opcode (.u24 value)
  | .switch cases =>
    if named then
      .switch ((Instruction.switchCases instruction.ip cases).map fun (_, value, _, target) =>
        (value, labelName target))
    else .plain instruction.opcode (.switch cases)
  | operands => .plain instruction.opcode operands

/-- An order asks for a statement if it is that statement, or a call of a native by its hash where
the statement has the index of this hash. -/
def Order.Means (natives : Array UInt64) (order : Order) (statement : Statement) : Prop :=
  match order with
  | .statement other => other = statement
  | .native parameters returns hash =>
    ∃ index : UInt16, natives[index.toNat]? = some hash ∧
      statement = .native parameters returns index

theorem readInstruction_eq
    {opcode : Opcode} {texts : List String} {order : Order}
    (reads : readOperands opcode texts = .ok order) :
    readInstruction opcode.mnemonic texts = .ok order := by
  rw [readInstruction, opcode.read_mnemonic]
  simp only [bind, Except.bind, reads]
  rfl

theorem packCounts_unpacked (counts : UInt8) :
    Operands.packCounts (Operands.nativeParameters counts) (Operands.nativeReturns counts) =
      counts := by
  have unpacked : ∀ bits : BitVec 8, (bits >>> 2 &&& 63) <<< 2 ||| (bits &&& 3 &&& 3) = bits := by
    decide +kernel
  exact UInt8.eq_of_toBitVec_eq (unpacked counts.toBitVec)

/-- An instruction has texts that are read as an order for its listed statement. -/
def ReadsBack (named : Bool) (names : AddressTable String) (natives : Array UInt64)
    (instruction : Instruction) : Prop :=
  ∃ texts order, operandTexts named names natives instruction = .ok texts ∧
    readInstruction instruction.opcode.mnemonic texts = .ok order ∧
    order.Means natives (listedStatement named names instruction)

section ReadsBack

variable {named : Bool} {names : AddressTable String} {natives : Array UInt64} {ip : Nat}
  {opcode : Opcode}

/-- An instruction whose operands stand for themselves is read back if its texts are read as its
operands. -/
theorem readsBack_plain
    {operands : Operands} {texts : List String}
    (isTexts : operandTexts named names natives ⟨ip, opcode, operands⟩ = .ok texts)
    (reads : readOperands opcode texts = .ok (.statement (.plain opcode operands)))
    (isPlain : listedStatement named names ⟨ip, opcode, operands⟩ = .plain opcode operands) :
    ReadsBack named names natives ⟨ip, opcode, operands⟩ :=
  ⟨texts, _, isTexts, readInstruction_eq reads, isPlain.symm⟩

theorem readsBack_u24
    {value : UInt32}
    (notInteger : opcode = .call → ∀ name, names.get? value.toNat = some name →
      integer? name = none)
    (layout : opcode.layout = .u24) :
    ReadsBack named names natives ⟨ip, opcode, .u24 value⟩ := by
  have bound := value.toNat_lt
  by_cases isCall : opcode = .call
  · subst isCall
    cases found : names.get? value.toNat with
    | some name =>
        refine ⟨[name], .statement (.call name), ?_, readInstruction_eq ?_, ?_⟩
        · simp [operandTexts, found]
        · unfold readOperands
          rw [layout]
          simp [notInteger rfl name found]
        · simp [Order.Means, listedStatement, found]
    | none =>
        have isInteger : integer? ("0x" ++ address value.toNat) = some (value.toNat : Int) :=
          integer?_hex (by omega) 6
        apply readsBack_plain
        · simp only [operandTexts, found, if_true]
          rfl
        · unfold readOperands
          rw [layout]
          simp only [Option.getD_none, isInteger, reduceCtorEq, and_false, if_false,
            readUInt24_eq isInteger]
          rfl
        · simp [listedStatement, found]
  · apply readsBack_plain
    · simp only [operandTexts, isCall, if_false]
      rfl
    · unfold readOperands
      rw [layout]
      simp only [isCall, false_and, if_false,
        readUInt24_eq (integer?_toString (show value.toNat < 2 ^ 63 by omega))]
      rfl
    · simp [listedStatement, isCall]

theorem readsBack_rel16
    (offset : Int16)
    (layout : opcode.layout = .rel16) :
    ReadsBack named names natives ⟨ip, opcode, .rel16 offset⟩ := by
  cases named with
  | true =>
      refine ⟨[labelName (Instruction.jumpTarget ip offset)],
        .statement (.jump opcode (labelName (Instruction.jumpTarget ip offset))), rfl,
        readInstruction_eq ?_, rfl⟩
      unfold readOperands
      rw [layout]
      simp only [integer?_labelName, if_true]
  | false =>
      have notBelow := offset.le_toInt
      have notAbove := offset.toInt_lt
      refine readsBack_plain rfl ?_ rfl
      unfold readOperands
      rw [layout]
      simp only [readInt16_toString, reduceCtorEq,
        integer?_toString_int (show -2 ^ 63 < offset.toInt by omega) (by omega), if_false]
      rfl

theorem readsBack_native
    (counts : UInt8)
    {index : UInt16}
    (known : index.toNat < natives.size) :
    ReadsBack named names natives ⟨ip, .native, .native counts index⟩ := by
  refine ⟨[toString (Operands.nativeParameters counts).toNat,
    toString (Operands.nativeReturns counts).toNat, "0x" ++ hex 16 natives[index.toNat].toNat],
    .native (Operands.nativeParameters counts) (Operands.nativeReturns counts)
      natives[index.toNat], ?_, readInstruction_eq ?_, index, ?_, ?_⟩
  · simp only [operandTexts, Array.getElem?_eq_getElem known]
  · unfold readOperands Opcode.layout
    simp only [readUInt8_toString, readHash_hex]
    rfl
  · exact Array.getElem?_eq_getElem known
  · simp only [listedStatement, Statement.native, packCounts_unpacked]

theorem readsBack_enter
    (parameters : UInt8)
    (frameSize : UInt16)
    (name : Option String) :
    ReadsBack named names natives
      ⟨ip, .enter, .enter parameters frameSize (Operands.nameFieldOf name)⟩ := by
  have sameField := Operands.nameFieldOf_enterName? name
  cases found : Operands.enterName? (Operands.nameFieldOf name) with
  | none =>
      rw [found] at sameField
      refine ⟨[toString parameters.toNat, toString frameSize.toNat],
        .statement (.enter parameters frameSize none), ?_, readInstruction_eq ?_, ?_⟩
      · simp [operandTexts, found]
      · unfold readOperands Opcode.layout
        simp only [readUInt8_toString, readUInt16_toString]
        rfl
      · simp only [Order.Means, listedStatement, Statement.enter, sameField]
  | some shortened =>
      rw [found] at sameField
      refine ⟨[toString parameters.toNat, toString frameSize.toNat, shortened],
        .statement (.enter parameters frameSize (some shortened)), ?_, readInstruction_eq ?_, ?_⟩
      · simp [operandTexts, found]
      · unfold readOperands Opcode.layout
        simp only [readUInt8_toString, readUInt16_toString]
        rfl
      · simp only [Order.Means, listedStatement, Statement.enter, sameField]

/-- The values and offsets of the cases of a switch. -/
theorem map_switchCases_offset (ip : Nat) (cases : List (UInt32 × Int16)) :
    (Instruction.switchCases ip cases).map (fun (_, value, offset, _) => (value, offset)) =
      cases := by
  apply List.ext_getElem?
  intro index
  simp only [Instruction.switchCases, List.getElem?_map, List.getElem?_mapIdx, Option.map_map]
  cases cases[index]? <;> rfl

theorem readsBack_switch
    {cases : List (UInt32 × Int16)}
    (hasCases : named = false → cases ≠ []) :
    ReadsBack named names natives ⟨ip, .switch, .switch cases⟩ := by
  cases named with
  | true =>
      have reads := readSwitch_labels ((Instruction.switchCases ip cases).map
        fun (_, value, _, target) => (value, target))
      rw [List.map_map, List.map_map] at reads
      refine ⟨_, .statement (listedStatement true names ⟨ip, .switch, .switch cases⟩), rfl,
        readInstruction_eq ?_, rfl⟩
      unfold readOperands Opcode.layout
      simp only [if_true]
      exact congrArg (Except.map Order.statement) reads
  | false =>
      have reads := readSwitch_offsets (hasCases rfl)
      rw [← map_switchCases_offset ip cases, List.map_map] at reads
      refine readsBack_plain rfl ?_ rfl
      unfold readOperands Opcode.layout
      simp only [Bool.false_eq_true, if_false]
      rw [map_switchCases_offset] at reads
      exact congrArg (Except.map Order.statement) reads

end ReadsBack

/-- The texts of an instruction are read as an order for its listed statement. -/
theorem readsBack_of_listable
    {named : Bool} {names : AddressTable String} {natives : Array UInt64}
    {instruction : Instruction}
    (listable : instruction.Listable natives)
    (readsNumber : ∀ value, instruction.operands = .f32 value → readFloat value.text = .ok value)
    (notIntegers : ∀ target name, instruction.opcode = .call → instruction.operands = .u24 target →
      names.get? target.toNat = some name → integer? name = none)
    (hasCases : named = false → instruction.operands ≠ .switch []) :
    ReadsBack named names natives instruction := by
  obtain ⟨ip, opcode, operands⟩ := instruction
  obtain ⟨⟨layout, fits⟩, hasName, hasNative⟩ := listable
  simp only at layout fits
  cases operands with
  | none =>
      refine readsBack_plain rfl ?_ rfl
      unfold readOperands
      rw [← layout]
      rfl
  | u8 value =>
      refine readsBack_plain rfl ?_ rfl
      unfold readOperands
      rw [← layout]
      simp only [Operands.layout, readUInt8_toString]
      rfl
  | u8u8 first second =>
      refine readsBack_plain rfl ?_ rfl
      unfold readOperands
      rw [← layout]
      simp only [Operands.layout, readUInt8_toString]
      rfl
  | u8u8u8 first second third =>
      refine readsBack_plain rfl ?_ rfl
      unfold readOperands
      rw [← layout]
      simp only [Operands.layout, readUInt8_toString]
      rfl
  | s16 value =>
      refine readsBack_plain rfl ?_ rfl
      unfold readOperands
      rw [← layout]
      simp only [Operands.layout, readInt16_toString]
      rfl
  | u16 value =>
      refine readsBack_plain rfl ?_ rfl
      unfold readOperands
      rw [← layout]
      simp only [Operands.layout, readUInt16_toString]
      rfl
  | u24 value =>
      exact readsBack_u24 (fun isCall name => notIntegers value name isCall rfl) layout.symm
  | u32 value =>
      refine readsBack_plain rfl ?_ rfl
      unfold readOperands
      rw [← layout]
      simp only [Operands.layout, readWord32_toString]
      rfl
  | f32 value =>
      refine readsBack_plain rfl ?_ rfl
      unfold readOperands
      rw [← layout]
      simp only [Operands.layout, readsNumber value rfl]
      rfl
  | rel16 offset => exact readsBack_rel16 offset layout.symm
  | native counts index =>
      rw [Opcode.eq_of_layout_native layout.symm]
      exact readsBack_native counts (hasNative counts index rfl)
  | enter parameters frameSize nameField =>
      obtain ⟨name, rfl⟩ := hasName parameters frameSize nameField rfl
      rw [Opcode.eq_of_layout_enter layout.symm]
      exact readsBack_enter parameters frameSize name
  | switch cases =>
      rw [Opcode.eq_of_layout_switch layout.symm]
      refine readsBack_switch fun notNamed => ?_
      rintro rfl
      exact hasCases notNamed rfl

end Listing
end ScriptBytecode
