import Mathlib.Data.List.Forall2
import ScriptBytecode.Proofs.AssembledItems

/-!
# The integers of listed instructions

A listed integer is checked against a range before it is stored in its field.  The range of most
fields is what they hold.  The 24-bit fields and the counts of native calls are the exception: for
these more integers are accepted than the field holds, and only the low bits of the integer are
stored.
-/

namespace ScriptBytecode

/-- The integers among operands that a listing gives as such; the index of a native stands for a
hash. -/
def Operands.integers : Operands → List Int
  | .none => []
  | .u8 value => [value.toNat]
  | .u8u8 first second => [first.toNat, second.toNat]
  | .u8u8u8 first second third => [first.toNat, second.toNat, third.toNat]
  | .s16 value => [value.toInt]
  | .u16 value => [value.toNat]
  | .u24 value => [value.toNat]
  | .u32 value => [value.toNat]
  | .f32 _ => []
  | .rel16 offset => [offset.toInt]
  | .native counts _ => [(nativeParameters counts).toNat, (nativeReturns counts).toNat]
  | .enter parameters frameSize _ => [parameters.toNat, frameSize.toNat]
  | .switch cases => cases.flatMap fun case => [case.1.toNat, case.2.toInt]

namespace Listing

variable {fields : List IntegerField} {codeUnit : CodeUnit} {field : IntegerField} {opcode : Opcode}
    {texts : List String} {values : List Int} {function : FunctionCode} {hash : UInt64}

/-- A field for an integer among the operands of an instruction. -/
inductive IntegerField
  | byte
  | int16
  | word16
  | word24
  | word32
  /-- The six bits of the parameter count of a native call. -/
  | parameters
  /-- The two bits of the return count of a native call. -/
  | returns
deriving DecidableEq

namespace IntegerField

/-- The least integer that a field holds.  A word of 32 bits may be written as a signed integer. -/
def least : IntegerField → Int
  | .int16 => -0x8000
  | .word32 => -0x80000000
  | _ => 0

/-- The least integer above those that a field holds. -/
def limit : IntegerField → Int
  | .byte => 0x100
  | .int16 => 0x8000
  | .word16 => 0x10000
  | .word24 => 0x1000000
  | .word32 => 0x100000000
  | .parameters => 0x40
  | .returns => 4

/-- The least integer above those that are accepted for a field. -/
def acceptedLimit : IntegerField → Int
  | .word24 => 0x100000000
  | .parameters => 0x100
  | .returns => 0x100
  | field => field.limit

/-- Whether a field holds an integer. -/
def holds (field : IntegerField) (value : Int) : Bool :=
  field.least ≤ value ∧ value < field.limit

/-- Whether an integer is accepted for a field. -/
def accepts (field : IntegerField) (value : Int) : Bool :=
  field.least ≤ value ∧ value < field.acceptedLimit

/-- The integer that is read back from a field. -/
def stored : IntegerField → Int → Int
  | .int16, value => value
  | field, value => value % field.limit

/-- The range that an integer is checked against, unless it is a word of 32 bits. -/
def range? : IntegerField → Option IntegerRange
  | .byte => some .u8
  | .int16 => some .i16
  | .word16 => some .u16
  | .word24 => some .u32
  | .word32 => none
  | .parameters => some .u8
  | .returns => some .u8

/-- The fault of an integer that is not accepted. -/
def fault (field : IntegerField) (text : String) : OperandFault :=
  match field.range? with
  | some range => .notInteger text range
  | none => .notWord text

end IntegerField

/-- The fields of the integers that are listed for a layout of integers only, with a hash behind
them for a native. -/
def integerFields : OperandLayout → List IntegerField
  | .u8 => [.byte]
  | .u8u8 => [.byte, .byte]
  | .u8u8u8 => [.byte, .byte, .byte]
  | .s16 => [.int16]
  | .u16 => [.word16]
  | .u24 => [.word24]
  | .u32 => [.word32]
  | .rel16 => [.int16]
  | .native => [.parameters, .returns]
  | .none => []
  | .f32 => []
  | .enter => []
  | .switch => []

/-- The first fault among integers that are listed for fields. -/
def firstFault? : List IntegerField → List String → List Int → Option OperandFault
  | field :: fields, text :: texts, value :: values =>
    if field.accepts value then firstFault? fields texts values else some (field.fault text)
  | _, _, _ => none

/-- What is listed behind the integers of a layout: the hash of a native that is in the table of a
unit or finds room there, and otherwise nothing. -/
def FollowsIntegers (codeUnit : CodeUnit) (hash : UInt64) (layout : OperandLayout)
    (further : List String) : Prop :=
  if layout = .native then
    (∃ text, further = [text] ∧ Text.word? text = some hash) ∧
      (codeUnit.nativeIndices[hash]? ≠ none ∨ codeUnit.natives.size < maxNatives)
  else further = []

/-- A listed item is written as an instruction of an opcode, and the given integers are read back
from its operands. -/
def WritesIntegers (codeUnit : CodeUnit) (function : FunctionCode) (item : Item) (opcode : Opcode)
    (integers : List Int) : Prop :=
  ∃ next bytes operands, writeItem item codeUnit = .ok () next ∧
    next.current = some ⟨function.name, (function.arena.push ⟨bytes, [], []⟩).2⟩ ∧
    Instruction.decode bytes 0 = .ok ⟨0, opcode, operands⟩ ∧ operands.integers = integers

/-- Integers that are the same as words of 32 bits. -/
def SameWord (first second : Int) : Prop :=
  first % 0x100000000 = second % 0x100000000

/-! ## Fields -/

namespace IntegerField

variable {field : IntegerField}

/-- The range of a field holds the integers that are accepted for it. -/
theorem holds_range
    {range : IntegerRange}
    (isRange : field.range? = some range)
    (value : Int) :
    range.holds value = field.accepts value := by
  cases field <;> cases isRange <;>
    simp only [IntegerRange.holds, IntegerRange.least, IntegerRange.greatest, accepts, least,
      acceptedLimit, limit] <;>
    grind

/-- Of the integers that are accepted for a field, those are kept that the field holds. -/
theorem sameWord_stored_iff
    {value : Int}
    (accepted : field.accepts value = true) :
    SameWord (field.stored value) value ↔ field.holds value = true := by
  have bounds := of_decide_eq_true accepted
  rw [holds, decide_eq_true_iff]
  cases field with
  | int16 => exact iff_of_true rfl bounds
  | _ =>
      simp only [SameWord, stored, least, acceptedLimit, limit] at bounds ⊢
      omega

end IntegerField

/-- There is no fault if every integer is accepted. -/
theorem firstFault?_eq_none_iff
    (complete : texts.length = fields.length)
    (sameLength : values.length = fields.length) :
    firstFault? fields texts values = none ↔
      List.Forall₂ (fun field value => field.accepts value = true) fields values := by
  induction fields generalizing texts values with
  | nil =>
      obtain rfl := List.length_eq_zero_iff.mp sameLength
      exact iff_of_true rfl .nil
  | cons field fields ih =>
      obtain ⟨text, texts, rfl⟩ := List.exists_cons_of_length_eq_add_one complete
      obtain ⟨value, values, rfl⟩ := List.exists_cons_of_length_eq_add_one sameLength
      simp only [List.length_cons, Nat.add_right_cancel_iff] at complete sameLength
      rw [firstFault?, List.forall₂_cons, ← ih complete sameLength]
      cases field.accepts value <;> simp

/-- Integers that are accepted are kept if all of them are held by their fields. -/
theorem forall₂_sameWord_iff
    (accepted : List.Forall₂ (fun field value => field.accepts value = true) fields values) :
    List.Forall₂ SameWord (List.zipWith IntegerField.stored fields values) values ↔
      List.Forall₂ (fun field value => field.holds value = true) fields values := by
  induction accepted with
  | nil => exact iff_of_true .nil .nil
  | cons isAccepted _ ih =>
      rw [List.zipWith_cons_cons, List.forall₂_cons, List.forall₂_cons, ih,
        IntegerField.sameWord_stored_iff isAccepted]

/-! ## Reading integers -/

/-- Reads the integer of a field. -/
def readField (field : IntegerField) (text : String) : Except OperandFault Int :=
  match Text.integer? text with
  | some value => if field.accepts value then .ok value else .error (field.fault text)
  | none => .error (field.fault text)

/-- Reads the integers of fields one after the other. -/
def readFields : List IntegerField → List String → Except OperandFault (List Int)
  | field :: fields, text :: texts => do
    let value ← readField field text
    let values ← readFields fields texts
    return value :: values
  | _, _ => .ok []

theorem readInteger_eq_readField
    {range : IntegerRange}
    (isRange : field.range? = some range)
    (text : String) :
    readInteger range text = readField field text := by
  unfold readInteger readField
  cases Text.integer? text with
  | none => simp only [IntegerField.fault, isRange]
  | some value => simp only [IntegerField.holds_range isRange, IntegerField.fault, isRange]

theorem readWord32_eq_readField (text : String) :
    readWord32 text =
      (readField .word32 text).map fun value => UInt32.ofNat (value % 0x100000000).toNat := by
  have sameCheck : ∀ value, IntegerField.word32.accepts value = true ↔
      -0x80000000 ≤ value ∧ value < 0x100000000 := fun _ => decide_eq_true_iff
  unfold readWord32 readField
  simp only [sameCheck]
  cases Text.integer? text with
  | none => rfl
  | some value =>
      simp only
      split <;> rfl

/-- Integers are read up to the first fault. -/
theorem readFields_eq
    (integers : List.Forall₂ (fun text value => Text.integer? text = some value) texts values)
    (complete : texts.length = fields.length) :
    readFields fields texts =
      match firstFault? fields texts values with
      | some fault => .error fault
      | none => .ok values := by
  induction integers generalizing fields with
  | nil =>
      obtain rfl := List.length_eq_zero_iff.mp complete.symm
      rfl
  | @cons text value texts values isInteger integers ih =>
      obtain ⟨field, rest, rfl⟩ := List.exists_cons_of_length_eq_add_one complete.symm
      rw [readFields, readField, isInteger, firstFault?,
        ih (by simpa using complete)]
      cases accepted : field.accepts value with
      | false => simp [accepted, bind, Except.bind]
      | true =>
          simp only [accepted, if_true]
          cases firstFault? rest texts values <;> rfl

/-- The operands of a layout that integers are stored in. -/
def operandsOf : OperandLayout → List Int → Operands
  | .u8, [value] => .u8 (UInt8.ofNat value.toNat)
  | .u8u8, [first, second] => .u8u8 (UInt8.ofNat first.toNat) (UInt8.ofNat second.toNat)
  | .u8u8u8, [first, second, third] =>
    .u8u8u8 (UInt8.ofNat first.toNat) (UInt8.ofNat second.toNat) (UInt8.ofNat third.toNat)
  | .s16, [value] => .s16 (Int16.ofInt value)
  | .u16, [value] => .u16 (UInt16.ofNat value.toNat)
  | .u24, [value] => .u24 (UInt32.ofNat value.toNat)
  | .u32, [value] => .u32 (UInt32.ofNat (value % 0x100000000).toNat)
  | .rel16, [offset] => .rel16 (Int16.ofInt offset)
  | _, _ => .none

/-- What an instruction with the given integers asks for. -/
def orderOf (opcode : Opcode) (hash : UInt64) (values : List Int) : Order :=
  match opcode.layout, values with
  | .native, [parameters, returns] =>
    .native (UInt8.ofNat parameters.toNat) (UInt8.ofNat returns.toNat) hash
  | layout, values => .statement (.plain opcode (operandsOf layout values))

theorem readUInt8_eq_readField
    (isByte : field.range? = some .u8)
    (text : String) :
    readUInt8 text = (readField field text).map fun value => UInt8.ofNat value.toNat := by
  rw [readUInt8, readInteger_eq_readField isByte]

/-- The operand of a layout of one integer is read as the field asks. -/
theorem readOperands_single
    {text : String}
    (isField : integerFields opcode.layout = [field])
    (isInteger : Text.integer? text ≠ none) :
    readOperands opcode [text] =
      (readField field text).map fun value =>
        .statement (.plain opcode (operandsOf opcode.layout [value])) := by
  have int16 := readInteger_eq_readField (show IntegerField.int16.range? = some .i16 from rfl)
  have word16 := readInteger_eq_readField (show IntegerField.word16.range? = some .u16 from rfl)
  have word24 := readInteger_eq_readField (show IntegerField.word24.range? = some .u32 from rfl)
  have byte := readUInt8_eq_readField (show IntegerField.byte.range? = some .u8 from rfl)
  cases layout : opcode.layout <;> rw [layout] at isField <;> cases isField <;>
    unfold readOperands <;>
    simp only [layout, isInteger, and_false, if_false, readInt16, readUInt16, readUInt24,
      readWord32_eq_readField, int16, word16, word24, byte] <;>
    generalize readField _ text = answer <;>
    cases answer <;> rfl

/-- The operands of a layout of integers are read field by field. -/
theorem readOperands_eq_map
    {further : List String}
    (hasIntegers : integerFields opcode.layout ≠ [])
    (integers : List.Forall₂ (fun text value => Text.integer? text = some value) texts values)
    (complete : texts.length = (integerFields opcode.layout).length)
    (follows : if opcode.layout = .native then
      ∃ text, further = [text] ∧ Text.word? text = some hash else further = []) :
    readOperands opcode (texts ++ further) =
      (readFields (integerFields opcode.layout) texts).map (orderOf opcode hash) := by
  have byte := readUInt8_eq_readField (show IntegerField.byte.range? = some .u8 from rfl)
  cases layout : opcode.layout with
  | none => exact absurd (by rw [layout]; rfl) hasIntegers
  | f32 => exact absurd (by rw [layout]; rfl) hasIntegers
  | enter => exact absurd (by rw [layout]; rfl) hasIntegers
  | switch => exact absurd (by rw [layout]; rfl) hasIntegers
  | u8u8 =>
      rw [layout] at complete follows
      obtain ⟨first, second, rfl⟩ := List.length_eq_two.mp complete
      obtain rfl : further = [] := by simpa using follows
      unfold readOperands orderOf
      simp only [layout, integerFields, readFields, List.append_nil, byte]
      cases readField .byte first with
      | error fault => rfl
      | ok value => cases readField .byte second <;> rfl
  | u8u8u8 =>
      rw [layout] at complete follows
      obtain ⟨first, second, third, rfl⟩ := List.length_eq_three.mp complete
      obtain rfl : further = [] := by simpa using follows
      unfold readOperands orderOf
      simp only [layout, integerFields, readFields, List.append_nil, byte]
      cases readField .byte first with
      | error fault => rfl
      | ok value =>
          cases readField .byte second with
          | error fault => rfl
          | ok value => cases readField .byte third <;> rfl
  | native =>
      have parameters := readUInt8_eq_readField
        (show IntegerField.parameters.range? = some .u8 from rfl)
      have returns := readUInt8_eq_readField (show IntegerField.returns.range? = some .u8 from rfl)
      rw [layout] at complete follows
      obtain ⟨first, second, rfl⟩ := List.length_eq_two.mp complete
      obtain ⟨text, rfl, isHash⟩ : ∃ text, further = [text] ∧ Text.word? text = some hash := by
        simpa using follows
      unfold readOperands orderOf
      simp only [layout, integerFields, readFields, List.cons_append, List.nil_append, readHash,
        isHash, parameters first, returns second]
      cases readField .parameters first with
      | error fault => rfl
      | ok value => cases readField .returns second <;> rfl
  | _ =>
      rw [layout] at complete follows
      obtain ⟨text, rfl⟩ := List.length_eq_one_iff.mp complete
      obtain rfl : further = [] := by simpa using follows
      obtain ⟨value, _, isInteger, -, rfl⟩ := List.forall₂_cons_left_iff.mp integers
      rw [List.append_nil, readOperands_single (by rw [layout]; rfl) (by simp [isInteger])]
      unfold orderOf
      simp only [layout, integerFields, readFields]
      generalize readField _ text = answer
      cases answer <;> rfl

/-! ## Storing integers -/

/-- An order for an instruction of an opcode from whose operands the integers are read back. -/
inductive Order.Stores (opcode : Opcode) (integers : List Int) : Order → Prop
  | plain (operands : Operands) (layout : operands.layout = opcode.layout)
      (fits : operands.stored.Fits) (areIntegers : operands.stored.integers = integers) :
      Stores opcode integers (.statement (.plain opcode operands))
  | native (parameters returns : UInt8) (hash : UInt64) (isNative : opcode = .native)
      (areIntegers : [(parameters.toNat : Int) % 0x40, (returns.toNat : Int) % 4] = integers) :
      Stores opcode integers (.native parameters returns hash)

section Stored

variable {value : Int}

/-- A field that is checked as a byte stores the low bits of the byte. -/
theorem toNat_emod_limit
    {field : IntegerField}
    (isByte : field.range? = some .u8)
    (accepted : field.accepts value = true) :
    ((UInt8.ofNat value.toNat).toNat : Int) % field.limit = field.stored value := by
  have bounds := of_decide_eq_true accepted
  cases field <;> cases isByte <;>
    simp only [IntegerField.least, IntegerField.stored, IntegerField.limit,
      UInt8.toNat_ofNat'] at bounds ⊢ <;>
    omega

theorem toNat_byte (accepted : IntegerField.byte.accepts value = true) :
    ((UInt8.ofNat value.toNat).toNat : Int) = IntegerField.byte.stored value := by
  have bound := (UInt8.ofNat value.toNat).toNat_lt
  rw [← toNat_emod_limit rfl accepted, IntegerField.limit]
  omega

theorem toInt_int16 (accepted : IntegerField.int16.accepts value = true) :
    (Int16.ofInt value).toInt = IntegerField.int16.stored value := by
  have bounds := of_decide_eq_true accepted
  simp only [IntegerField.least, IntegerField.acceptedLimit, IntegerField.limit,
    IntegerField.stored] at bounds ⊢
  exact Int16.toInt_ofInt_of_le bounds.1 bounds.2

theorem toNat_word16 (accepted : IntegerField.word16.accepts value = true) :
    ((UInt16.ofNat value.toNat).toNat : Int) = IntegerField.word16.stored value := by
  have bounds := of_decide_eq_true accepted
  simp only [IntegerField.least, IntegerField.stored, IntegerField.limit,
    UInt16.toNat_ofNat'] at bounds ⊢
  omega

theorem toNat_word24 (accepted : IntegerField.word24.accepts value = true) :
    ((UInt32.ofNat ((UInt32.ofNat value.toNat).toNat % 2 ^ 24)).toNat : Int) =
      IntegerField.word24.stored value := by
  have bounds := of_decide_eq_true accepted
  simp only [IntegerField.least, IntegerField.stored, IntegerField.limit,
    UInt32.toNat_ofNat'] at bounds ⊢
  omega

theorem toNat_word32 (value : Int) :
    ((UInt32.ofNat (value % 0x100000000).toNat).toNat : Int) =
      IntegerField.word32.stored value := by
  simp only [IntegerField.stored, IntegerField.limit, UInt32.toNat_ofNat']
  omega

end Stored

/-- An order with one accepted integer stores it. -/
theorem stores_orderOf_single
    {value : Int}
    (isField : integerFields opcode.layout = [field])
    (accepted : field.accepts value = true)
    (hash : UInt64) :
    (orderOf opcode hash [value]).Stores opcode [field.stored value] := by
  unfold orderOf
  cases layout : opcode.layout <;> rw [layout] at isField <;> cases isField
  case u8 => exact .plain _ layout.symm trivial (congrArg ([·]) (toNat_byte accepted))
  case s16 => exact .plain _ layout.symm trivial (congrArg ([·]) (toInt_int16 accepted))
  case u16 => exact .plain _ layout.symm trivial (congrArg ([·]) (toNat_word16 accepted))
  case u24 =>
    refine .plain _ layout.symm ?_ (congrArg ([·]) (toNat_word24 accepted))
    simp only [operandsOf, Operands.stored, Operands.Fits, UInt32.toNat_ofNat']
    omega
  case u32 => exact .plain _ layout.symm trivial (congrArg ([·]) (toNat_word32 value))
  case rel16 => exact .plain _ layout.symm trivial (congrArg ([·]) (toInt_int16 accepted))

/-- An order with accepted integers stores them. -/
theorem stores_orderOf
    (hasIntegers : integerFields opcode.layout ≠ [])
    (accepted : List.Forall₂ (fun field value => field.accepts value = true)
      (integerFields opcode.layout) values)
    (hash : UInt64) :
    (orderOf opcode hash values).Stores opcode
      (List.zipWith IntegerField.stored (integerFields opcode.layout) values) := by
  cases layout : opcode.layout with
  | none => exact absurd (by rw [layout]; rfl) hasIntegers
  | f32 => exact absurd (by rw [layout]; rfl) hasIntegers
  | enter => exact absurd (by rw [layout]; rfl) hasIntegers
  | switch => exact absurd (by rw [layout]; rfl) hasIntegers
  | u8u8 =>
      rw [layout] at accepted
      obtain _ | ⟨first, _ | ⟨second, nothing⟩⟩ := accepted
      cases nothing
      simp only [orderOf, layout, integerFields, List.zipWith_cons_cons, ← toNat_byte first,
        ← toNat_byte second]
      exact .plain _ layout.symm trivial rfl
  | u8u8u8 =>
      rw [layout] at accepted
      obtain _ | ⟨first, _ | ⟨second, _ | ⟨third, nothing⟩⟩⟩ := accepted
      cases nothing
      simp only [orderOf, layout, integerFields, List.zipWith_cons_cons, ← toNat_byte first,
        ← toNat_byte second, ← toNat_byte third]
      exact .plain _ layout.symm trivial rfl
  | native =>
      rw [layout] at accepted
      obtain _ | ⟨parameters, _ | ⟨returns, nothing⟩⟩ := accepted
      cases nothing
      simp only [orderOf, layout, integerFields, List.zipWith_cons_cons,
        ← toNat_emod_limit rfl parameters, ← toNat_emod_limit rfl returns]
      exact .native _ _ hash (Opcode.eq_of_layout_native layout) rfl
  | _ =>
      rw [layout] at accepted
      obtain _ | ⟨isAccepted, nothing⟩ := accepted
      cases nothing
      exact stores_orderOf_single (by rw [layout]; rfl) isAccepted hash

/-! ## Writing integers -/

/-- The counts of a native call are read back from where they are packed. -/
theorem counts_packCounts (parameters returns : UInt8) :
    (Operands.nativeParameters (Operands.packCounts parameters returns)).toNat =
        parameters.toNat % 0x40 ∧
      (Operands.nativeReturns (Operands.packCounts parameters returns)).toNat =
        returns.toNat % 4 := by
  have low6 : parameters.toNat &&& 63 = parameters.toNat % 64 := Nat.and_two_pow_sub_one_eq_mod _ 6
  have low2 : ∀ number, number &&& 3 = number % 4 := fun number =>
    Nat.and_two_pow_sub_one_eq_mod number 2
  have packed : (Operands.packCounts parameters returns).toNat =
      4 * (parameters.toNat % 0x40) + returns.toNat % 4 := by
    have small : (parameters.toNat % 64) <<< 2 % 2 ^ 8 = (parameters.toNat % 64) <<< 2 := by
      rw [Nat.shiftLeft_eq]
      omega
    simp only [Operands.packCounts, UInt8.toNat_or, UInt8.toNat_shiftLeft, UInt8.toNat_and,
      UInt8.reduceToNat, low6, low2, Nat.reduceMod, small]
    rw [← Nat.shiftLeft_add_eq_or_of_lt (by omega : returns.toNat % 4 < 2 ^ 2), Nat.shiftLeft_eq]
    omega
  simp only [Operands.nativeParameters, Operands.nativeReturns, UInt8.toNat_shiftRight,
    UInt8.toNat_and, UInt8.reduceToNat, packed, low2, Nat.reduceMod, Nat.shiftRight_eq_div_pow]
  omega

/-- A statement whose operands are known is written as the instruction with the stored operands. -/
theorem emit_plain
    (isOpen : codeUnit.current = some function)
    {operands : Operands}
    (layout : operands.layout = opcode.layout)
    (fits : operands.stored.Fits) :
    ∃ handle next bytes, CodeUnit.emit (.plain opcode operands) codeUnit = .ok handle next ∧
      next.current = some ⟨function.name, (function.arena.push ⟨bytes, [], []⟩).2⟩ ∧
      Instruction.decode bytes 0 = .ok ⟨0, opcode, operands.stored⟩ := by
  have fewCases : (Statement.plain opcode operands).caseCount ≤ maxSwitchCases := by
    cases operands with
    | switch cases => exact Nat.le_of_lt_succ fits
    | _ => exact Nat.zero_le _
  obtain ⟨handle, emitted⟩ := CodeUnit.emit_of_open isOpen fewCases
  have isInstruction : (Statement.plain opcode operands).fragment.bytes =
      Instruction.bytes ⟨0, opcode, operands.stored⟩ := by
    rw [Instruction.bytes, Operands.toBytes_stored]
    rfl
  have wellFormed : Instruction.WellFormed ⟨0, opcode, operands.stored⟩ :=
    ⟨by rw [Operands.layout_stored, layout], fits⟩
  have decoded := Instruction.decode_append wellFormed #[] #[] rfl
  rw [Array.empty_append, Array.append_empty, ← isInstruction] at decoded
  exact ⟨handle, _, _, emitted, rfl, decoded⟩

/-- A native that is in the table, or finds room there, has an index. -/
theorem exists_nativeIndex
    (hasPlace : codeUnit.nativeIndices[hash]? ≠ none ∨ codeUnit.natives.size < maxNatives) :
    ∃ index next, CodeUnit.nativeIndex hash codeUnit = .ok index next := by
  rcases codeUnit.nativeIndex_outcomes hash with
    ⟨index, -, found⟩ | ⟨-, -, added⟩ | ⟨unknown, full, -⟩
  · exact ⟨index, _, found⟩
  · exact ⟨_, _, added⟩
  · have room := hasPlace.resolve_left fun isKnown => isKnown unknown
    exact absurd full (Nat.not_le.mpr room)

/-- An order is carried out with the integers that it stores. -/
theorem writeOrder_stores
    (isOpen : codeUnit.current = some function)
    {integers : List Int} {order : Order}
    (stores : order.Stores opcode integers)
    (hasPlace : ∀ parameters returns hash, order = .native parameters returns hash →
      codeUnit.nativeIndices[hash]? ≠ none ∨ codeUnit.natives.size < maxNatives) :
    ∃ next bytes operands, writeOrder order codeUnit = .ok () next ∧
      next.current = some ⟨function.name, (function.arena.push ⟨bytes, [], []⟩).2⟩ ∧
      Instruction.decode bytes 0 = .ok ⟨0, opcode, operands⟩ ∧ operands.integers = integers := by
  cases stores with
  | plain operands layout fits areIntegers =>
      obtain ⟨handle, next, bytes, emitted, isCurrent, decoded⟩ := emit_plain isOpen layout fits
      refine ⟨next, bytes, operands.stored, ?_, isCurrent, decoded, areIntegers⟩
      simp only [writeOrder, bind, EStateM.bind, emitted]
      rfl
  | native parameters returns hash isNative areIntegers =>
      obtain ⟨index, middle, found⟩ := exists_nativeIndex (hasPlace parameters returns hash rfl)
      have stillOpen := (functions_of_nativeIndex found).2.trans isOpen
      obtain ⟨handle, next, bytes, emitted, isCurrent, decoded⟩ := emit_plain stillOpen
        (show (Operands.native (Operands.packCounts parameters returns) index).layout =
          Opcode.native.layout from rfl) trivial
      have isEmitted : CodeUnit.emit (.native parameters returns index) middle = .ok handle next :=
        emitted
      obtain ⟨packedParameters, packedReturns⟩ := counts_packCounts parameters returns
      refine ⟨next, bytes, _, ?_, isCurrent, isNative ▸ decoded, ?_⟩
      · simp only [writeOrder, CodeUnit.native, bind, EStateM.bind, found, isEmitted]
        rfl
      · rw [← areIntegers]
        simp only [Operands.stored, Operands.integers, packedParameters, packedReturns]
        rfl

/-- A listed instruction is read as its operands are. -/
theorem readInstruction_eq_of_read
    {mnemonic : String}
    (isOpcode : Opcode.read mnemonic = .ok opcode)
    (texts : List String) :
    readInstruction mnemonic texts =
      match readOperands opcode texts with
      | .ok order => .ok order
      | .error fault => .error (.malformed (.badOperands mnemonic texts fault)) := by
  rw [readInstruction, isOpcode]
  rfl

/-- A listed instruction of integers is written if all of them are accepted, and otherwise refused
for the first that is not.  What is written has the stored integers for its operands; these are the
listed ones, as words of 32 bits, exactly if every field holds its integer. -/
theorem writeItem_integers
    {codeUnit : CodeUnit} {function : FunctionCode}
    (isOpen : codeUnit.current = some function)
    {mnemonic : String} {opcode : Opcode}
    (isOpcode : Opcode.read mnemonic = .ok opcode)
    (hasIntegers : integerFields opcode.layout ≠ [])
    {texts further : List String} {values : List Int}
    (integers : List.Forall₂ (fun text value => Text.integer? text = some value) texts values)
    (complete : texts.length = (integerFields opcode.layout).length)
    {hash : UInt64}
    (follows : FollowsIntegers codeUnit hash opcode.layout further)
    (remark : Option Nat) :
    match firstFault? (integerFields opcode.layout) texts values with
    | some fault =>
      writeItem (.instruction remark mnemonic (texts ++ further)) codeUnit =
        .error (.malformed (.badOperands mnemonic (texts ++ further) fault)) codeUnit
    | none =>
      ∃ stored, WritesIntegers codeUnit function
          (.instruction remark mnemonic (texts ++ further)) opcode stored ∧
        stored = List.zipWith IntegerField.stored (integerFields opcode.layout) values ∧
        (List.Forall₂ SameWord stored values ↔
          List.Forall₂ (fun field value => field.holds value = true)
            (integerFields opcode.layout) values) := by
  have isHash : if opcode.layout = .native then
      ∃ text, further = [text] ∧ Text.word? text = some hash else further = [] := by
    unfold FollowsIntegers at follows
    split_ifs at follows ⊢
    · exact follows.1
    · exact follows
  have isRead := readOperands_eq_map hasIntegers integers complete isHash
  have sameLength := integers.length_eq.symm.trans complete
  cases found : firstFault? (integerFields opcode.layout) texts values with
  | some fault =>
      simp only [readFields_eq integers complete, found, Except.map] at isRead
      unfold writeItem
      simp only [readInstruction_eq_of_read isOpcode, isRead]
      rfl
  | none =>
      simp only [readFields_eq integers complete, found, Except.map] at isRead
      have accepted := (firstFault?_eq_none_iff complete sameLength).mp found
      have stores := stores_orderOf hasIntegers accepted hash
      have hasPlace : ∀ parameters returns other,
          orderOf opcode hash values = .native parameters returns other →
            codeUnit.nativeIndices[other]? ≠ none ∨ codeUnit.natives.size < maxNatives := by
        intro parameters returns other isNative
        unfold orderOf at isNative
        split at isNative
        · rename_i layout
          cases isNative
          rw [FollowsIntegers, if_pos layout] at follows
          exact follows.2
        · cases isNative
      refine ⟨_, ?_, rfl, forall₂_sameWord_iff accepted⟩
      unfold WritesIntegers writeItem
      simp only [readInstruction_eq_of_read isOpcode, isRead]
      exact writeOrder_stores isOpen stores hasPlace

/-- Of the counts of a native call only six and two bits are left. -/
theorem writeItem_integers_nativeCounts :
    WritesIntegers { current := some { name := "main" } } { name := "main" }
      (.instruction none "NATIVE" ["66", "7", "0x1"]) .native [2, 3] := by
  have isNative : Opcode.read "NATIVE" = .ok .native := by decide +kernel
  have integers : List.Forall₂ (fun text value => Text.integer? text = some value)
      ["66", "7"] [66, 7] := .cons (by decide +kernel) (.cons (by decide +kernel) .nil)
  have follows : FollowsIntegers { current := some { name := "main" } } 1 Opcode.native.layout
      ["0x1"] := ⟨⟨"0x1", rfl, by decide +kernel⟩, .inr (by decide)⟩
  obtain ⟨_, writes, rfl, -⟩ :=
    writeItem_integers rfl isNative (by decide) integers rfl follows none
  exact writes

/-- An integer of more than 24 bits is written to a 24-bit field without a fault. -/
theorem writesIntegers_tooLarge :
    WritesIntegers { current := some { name := "main" } } { name := "main" }
      (.instruction none "PUSH_CONST_U24" ["16777216"]) .pushConstU24 [0] := by
  have isRead : readInstruction "PUSH_CONST_U24" ["16777216"] =
      .ok (.statement (.plain .pushConstU24 (.u24 0x1000000))) := by decide +kernel
  have stores : Order.Stores .pushConstU24 [0]
      (.statement (.plain .pushConstU24 (.u24 0x1000000))) :=
    .plain _ rfl (by decide : (0 : UInt32).toNat < 2 ^ 24) rfl
  have isOpen : CodeUnit.current { current := some { name := "main" } } =
      some { name := "main" } := rfl
  unfold WritesIntegers writeItem
  simp only [isRead]
  exact writeOrder_stores isOpen stores (by simp)

end Listing
end ScriptBytecode
