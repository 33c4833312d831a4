import ScriptBytecode.Proofs.Words
import ScriptBytecode.Instruction.Operands

/-!
# Operands and their bytes

The division of operand bytes into fields and the bytes of the fields undo each other.  On the way
to bytes and back, operands lose nothing if they fit in their fields.
-/

namespace ScriptBytecode
namespace Operands

variable {operands : Operands}

/-- Operands that their fields hold without loss: a 24-bit value has no further bits, and the
length of a name field and the number of cases fit in a byte. -/
def Fits : Operands → Prop
  | .u24 value => value.toNat < 2 ^ 24
  | .enter _ _ nameField => nameField.length < 256
  | .switch cases => cases.length < 256
  | _ => True

/-- Operands as they are read back: of a 24-bit value, only the low 24 bits are left. -/
def stored : Operands → Operands
  | .u24 value => .u24 (UInt32.ofNat (value.toNat % 2 ^ 24))
  | operands => operands

@[simp] theorem layout_stored (operands : Operands) :
    operands.stored.layout = operands.layout := by
  cases operands <;> rfl

@[simp] theorem toBytes_stored (operands : Operands) :
    operands.stored.toBytes = operands.toBytes := by
  cases operands with
  | u24 value =>
      have bound : value.toNat < 2 ^ 32 := value.toNat_lt
      simp only [stored, toBytes, Bytes.ofUInt24, List.cons.injEq, and_true, ← UInt8.toNat_inj,
        UInt32.toNat_toUInt8, UInt32.toNat_shiftRight, UInt32.toNat_ofNat', UInt32.reduceToNat,
        Nat.shiftRight_eq_div_pow, Nat.reduceMod]
      omega
  | _ => rfl

theorem stored_eq_self (fits : operands.Fits) :
    operands.stored = operands := by
  cases operands with
  | u24 value =>
      simp only [Fits] at fits
      simp only [stored, Nat.mod_eq_of_lt fits, UInt32.ofNat_toNat]
  | _ => rfl

/-- The layouts that have an immediate. -/
theorem exists_immediate?
    (layout : operands.layout ∈ [OperandLayout.u8, .u16, .u24, .s16]) :
    ∃ immediate, operands.immediate? = some immediate := by
  cases operands with
  | u8 _ | u16 _ | u24 _ | s16 _ => exact ⟨_, rfl⟩
  | _ => simp [Operands.layout] at layout

/-! ## From operands to bytes and back -/

/-- The cases of a switch are read back from their bytes. -/
theorem casesOfBytes?_flatMap (cases : List (UInt32 × Int16)) :
    casesOfBytes? cases.length (cases.flatMap caseBytes) = some cases := by
  induction cases with
  | nil => rfl
  | cons head rest ih =>
      obtain ⟨value, offset⟩ := head
      simp only [List.length_cons, List.flatMap_cons, caseBytes, Bytes.ofUInt32, Bytes.ofUInt16,
        List.cons_append, List.nil_append, casesOfBytes?, ih, Option.map_some,
        Bytes.toUInt32_ofUInt32, Bytes.toUInt16_ofUInt16, Int16.toInt16_toUInt16]

/-- Operands that fit in their fields are read back from their bytes. -/
theorem ofBytes?_toBytes (fits : operands.Fits) :
    ofBytes? operands.layout operands.toBytes = some operands := by
  cases operands with
  | u24 value =>
      simp only [Fits] at fits
      simp only [layout, toBytes, Bytes.ofUInt24, ofBytes?, Option.some.injEq, u24.injEq,
        ← UInt32.toNat_inj, Bytes.toNat_toUInt24_ofUInt24, Nat.mod_eq_of_lt fits]
  | enter parameters frameSize nameField =>
      simp only [Fits] at fits
      have length : (UInt8.ofNat nameField.length).toNat = nameField.length := by
        rw [UInt8.toNat_ofNat']
        omega
      simp [layout, toBytes, Bytes.ofUInt16, ofBytes?, length]
  | switch cases =>
      simp only [Fits] at fits
      have count : (UInt8.ofNat cases.length).toNat = cases.length := by
        rw [UInt8.toNat_ofNat']
        omega
      simp [layout, toBytes, ofBytes?, count, casesOfBytes?_flatMap]
  | _ => simp [layout, toBytes, Bytes.ofUInt16, Bytes.ofUInt32, ofBytes?]

/-! ## From bytes to operands and back -/

/-- The bytes of the cases that were read are the ones they were read from. -/
theorem flatMap_of_casesOfBytes?
    {count : Nat} {bytes : List UInt8} {cases : List (UInt32 × Int16)}
    (read : casesOfBytes? count bytes = some cases) :
    cases.length = count ∧ cases.flatMap caseBytes = bytes := by
  fun_induction casesOfBytes? count bytes generalizing cases with
  | case1 =>
      cases read
      exact ⟨rfl, rfl⟩
  | case2 count value0 value1 value2 value3 offset0 offset1 rest ih =>
      obtain ⟨restCases, restRead, rfl⟩ := Option.map_eq_some_iff.mp read
      obtain ⟨restLength, restBytes⟩ := ih restRead
      refine ⟨by simp [restLength], ?_⟩
      simp [caseBytes, restBytes]
  | case3 => cases read

/-- Operands that were read fit in their fields, belong to the layout they were read for and have
the bytes they were read from. -/
theorem of_ofBytes?
    {expected : OperandLayout} {bytes : List UInt8}
    (read : ofBytes? expected bytes = some operands) :
    operands.layout = expected ∧ operands.toBytes = bytes ∧ operands.Fits := by
  unfold ofBytes? at read
  split at read
  case h_7 byte0 byte1 byte2 =>
      cases read
      refine ⟨rfl, by simp [toBytes], ?_⟩
      have bound0 : byte0.toNat < 2 ^ 8 := byte0.toNat_lt
      have bound1 : byte1.toNat < 2 ^ 8 := byte1.toNat_lt
      have bound2 : byte2.toNat < 2 ^ 8 := byte2.toNat_lt
      simp only [Fits, Bytes.toNat_toUInt24]
      omega
  case h_12 parameters frame0 frame1 nameLength nameField =>
      split at read
      · rename_i sameLength
        cases read
        have bound : nameLength.toNat < 2 ^ 8 := nameLength.toNat_lt
        refine ⟨rfl, by simp [toBytes, sameLength], ?_⟩
        simp only [Fits]
        omega
      · cases read
  case h_13 count rest =>
      obtain ⟨cases, casesRead, rfl⟩ := Option.map_eq_some_iff.mp read
      obtain ⟨sameCount, sameBytes⟩ := flatMap_of_casesOfBytes? casesRead
      have bound : count.toNat < 2 ^ 8 := count.toNat_lt
      refine ⟨rfl, by simp [toBytes, sameCount, sameBytes], ?_⟩
      simp only [Fits]
      omega
  all_goals
    cases read <;> simp [layout, toBytes, Fits]

end Operands
end ScriptBytecode
