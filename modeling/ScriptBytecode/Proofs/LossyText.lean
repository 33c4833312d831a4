import ScriptBytecode.Proofs.Utf8Text

/-!
# Text read from any bytes

Bytes that are no text are read with replacement characters.  Whatever the bytes, if none of them is
zero then no character is the character zero: a character that is completed by several bytes is
never zero, and neither is the replacement.
-/

namespace ScriptBytecode
namespace Utf8

variable {bits : Nat}

/-- The code point of a character other than the character zero. -/
def IsProper (value : Nat) : Prop :=
  0 < value ∧ (value < 0xD800 ∨ 0xDFFF < value ∧ value < 0x110000)

theorem ofNat_ne_nul {value : Nat} (proper : IsProper value) : Char.ofNat value ≠ '\x00' := by
  intro isNul
  have valid : value.isValidChar := proper.2
  rw [Char.ofNat, dif_pos valid] at isNul
  have zero : value = 0 := congrArg Char.toNat isNul
  exact absurd proper.1 (by omega)

/-- Whatever bytes complete a character from here on, it is not the character zero. -/
def Leads : (remaining low high bits : Nat) → Prop
  | 0, _, _, _ => False
  | 1, low, high, bits =>
    ∀ byte, low ≤ byte → byte ≤ high → IsProper (bits * 64 + byte % 64)
  | remaining + 2, low, high, bits =>
    ∀ byte, low ≤ byte → byte ≤ high →
      Leads (remaining + 1) 0x80 0xBF (bits * 64 + byte % 64)

/-- A state in which no character zero is begun. -/
def State.Proper : State → Prop
  | .between => True
  | .inside remaining low high bits => Leads remaining low.toNat high.toNat bits

/-! The bounds of the byte after the first one are those that keep every code point proper. -/

theorem leads_one
    (notBelow : 2 ≤ bits)
    (notAbove : bits < 32) :
    Leads 1 0x80 0xBF bits := by
  intro second _ _
  unfold IsProper
  omega

theorem leads_two
    {low high : Nat}
    (notAbove : bits < 16)
    (least : bits = 0 → 0xA0 ≤ low)
    (surrogates : bits = 13 → high ≤ 0x9F)
    (low_le : 0x80 ≤ low)
    (le_high : high ≤ 0xBF) :
    Leads 2 low high bits := by
  intro second _ _ third _ _
  unfold IsProper
  omega

theorem leads_three
    {low high : Nat}
    (notAbove : bits ≤ 4)
    (least : bits = 0 → 0x90 ≤ low)
    (greatest : bits = 4 → high ≤ 0x8F)
    (low_le : 0x80 ≤ low)
    (le_high : high ≤ 0xBF) :
    Leads 3 low high bits := by
  intro second _ _ third _ _ fourth _ _
  unfold IsProper
  omega

theorem proper_first
    {byte : UInt8}
    (notZero : byte ≠ 0) :
    (∀ char ∈ (State.first byte).1, char ≠ '\x00') ∧ (State.first byte).2.Proper := by
  have positive : 0 < byte.toNat := Nat.pos_of_ne_zero fun zero => notZero (UInt8.toNat_inj.mp zero)
  have small : byte.toNat < 256 := byte.toNat_lt
  unfold State.first
  simp only
  split
  · refine ⟨List.forall_mem_singleton.mpr (ofNat_ne_nul ⟨positive, ?_⟩), trivial⟩
    omega
  split
  · exact ⟨List.forall_mem_singleton.mpr (by decide), trivial⟩
  split
  · exact ⟨List.forall_mem_nil _, leads_one (by omega) (by omega)⟩
  split
  · exact ⟨List.forall_mem_nil _, leads_two (by omega) (by decide) (by decide) (by decide)
      (by decide)⟩
  split
  · exact ⟨List.forall_mem_nil _, leads_two (by omega) (by decide) (by decide) (by decide)
      (by decide)⟩
  split
  · exact ⟨List.forall_mem_nil _, leads_two (by omega) (by omega) (by omega) (by decide)
      (by decide)⟩
  split
  · exact ⟨List.forall_mem_nil _, leads_three (by omega) (by decide) (by decide) (by decide)
      (by decide)⟩
  split
  · exact ⟨List.forall_mem_nil _, leads_three (by omega) (by omega) (by omega) (by decide)
      (by decide)⟩
  split
  · exact ⟨List.forall_mem_nil _, leads_three (by omega) (by decide) (by decide) (by decide)
      (by decide)⟩
  · exact ⟨List.forall_mem_singleton.mpr (by decide), trivial⟩

/-- One byte that is not zero. -/
theorem State.Proper.step
    {state : State}
    (proper : state.Proper)
    {byte : UInt8}
    (notZero : byte ≠ 0) :
    (∀ char ∈ (state.step byte).1, char ≠ '\x00') ∧ (state.step byte).2.Proper := by
  cases state with
  | between => exact proper_first notZero
  | inside remaining low high bits =>
      unfold State.step
      simp only
      split
      · rename_i inRange
        have notBelow := UInt8.le_iff_toNat_le.mp inRange.1
        have notAbove := UInt8.le_iff_toNat_le.mp inRange.2
        match remaining, proper with
        | 1, proper =>
            exact ⟨List.forall_mem_singleton.mpr
              (ofNat_ne_nul (proper byte.toNat notBelow notAbove)), trivial⟩
        | remaining + 2, proper =>
            rw [if_neg (by omega)]
            exact ⟨List.forall_mem_nil _, proper byte.toNat notBelow notAbove⟩
      · obtain ⟨chars, next⟩ := proper_first notZero
        exact ⟨List.forall_mem_cons.mpr ⟨by decide, chars⟩, next⟩

/-- Bytes that are not zero are read without the character zero. -/
theorem nul_not_mem_charsFrom
    {state : State}
    (proper : state.Proper)
    {bytes : List UInt8}
    (notZero : ∀ byte ∈ bytes, byte ≠ 0) :
    '\x00' ∉ charsFrom state bytes := by
  induction bytes generalizing state with
  | nil =>
      rw [charsFrom]
      cases state with
      | between => exact List.not_mem_nil
      | inside => exact List.not_mem_cons_of_ne_of_not_mem (by decide) List.not_mem_nil
  | cons byte rest ih =>
      obtain ⟨here, later⟩ := List.forall_mem_cons.mp notZero
      obtain ⟨chars, next⟩ := proper.step here
      rw [charsFrom, List.mem_append]
      rintro (isHere | isLater)
      · exact chars _ isHere rfl
      · exact ih next later isLater

theorem nul_not_mem_decode
    {bytes : Bytes}
    (notZero : ∀ byte ∈ bytes, byte ≠ 0) :
    '\x00' ∉ (decode bytes).toList := by
  rw [decode_eq, String.toList_ofList]
  have proper : State.between.Proper := trivial
  exact nul_not_mem_charsFrom proper fun byte member =>
    notZero byte (Array.mem_toList_iff.mp member)

end Utf8
end ScriptBytecode
