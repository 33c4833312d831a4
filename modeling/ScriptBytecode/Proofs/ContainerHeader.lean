import ScriptBytecode.Proofs.ContainerBlocks

/-!
# Reading back a header

The header of a container is read from its bytes field by field, and the number of globals and their
block from the word that they share.
-/

namespace ScriptBytecode

namespace Segment
namespace Holds

variable {segment : Bytes} {position : Nat} {rest : List UInt8}

theorem field32
    {value : UInt32}
    (holds : Holds segment position (Bytes.ofUInt32 value ++ rest)) :
    Bytes.uint32At? segment position = some value ∧ Holds segment (position + 4) rest :=
  ⟨holds.left.uint32At?_eq, holds.right⟩

theorem field64
    {value : UInt64}
    (holds : Holds segment position (Bytes.ofUInt64 value ++ rest)) :
    Bytes.uint64At? segment position = some value ∧ Holds segment (position + 8) rest :=
  ⟨holds.left.uint64At?_eq, holds.right⟩

end Holds
end Segment

namespace Header

/-- The header at the start of a segment is read as it was written. -/
theorem ofBytes?_eq
    {segment : Bytes} {header : Header}
    (holds : Segment.Holds segment 0 header.toBytes) :
    ofBytes? segment = some header := by
  unfold toBytes at holds
  rw [← List.append_nil (Bytes.ofUInt64 header.globalBlockHashes)] at holds
  simp only [List.append_assoc] at holds
  obtain ⟨vtable, holds⟩ := holds.field32
  obtain ⟨fileUnknown, holds⟩ := holds.field32
  obtain ⟨pagesInfo, holds⟩ := holds.field64
  obtain ⟨codePages, holds⟩ := holds.field64
  obtain ⟨globalsSignature, holds⟩ := holds.field32
  obtain ⟨codeLength, holds⟩ := holds.field32
  obtain ⟨argsCount, holds⟩ := holds.field32
  obtain ⟨staticsCount, holds⟩ := holds.field32
  obtain ⟨globalsWord, holds⟩ := holds.field32
  obtain ⟨nativesCount, holds⟩ := holds.field32
  obtain ⟨statics, holds⟩ := holds.field64
  obtain ⟨globalsPages, holds⟩ := holds.field64
  obtain ⟨natives, holds⟩ := holds.field64
  obtain ⟨unknown48, holds⟩ := holds.field64
  obtain ⟨unknown50, holds⟩ := holds.field64
  obtain ⟨nameHash, holds⟩ := holds.field32
  obtain ⟨refCount, holds⟩ := holds.field32
  obtain ⟨name, holds⟩ := holds.field64
  obtain ⟨stringPages, holds⟩ := holds.field64
  obtain ⟨stringsLength, holds⟩ := holds.field32
  obtain ⟨unknown74, holds⟩ := holds.field32
  obtain ⟨unknown78, holds⟩ := holds.field64
  obtain ⟨unknown80, holds⟩ := holds.field64
  obtain ⟨unknown88, holds⟩ := holds.field64
  obtain ⟨unknown90, holds⟩ := holds.field64
  obtain ⟨unknown98, holds⟩ := holds.field64
  obtain ⟨globalBlockCount, holds⟩ := holds.field32
  obtain ⟨globalBlockHashes, -⟩ := holds.field64
  unfold ofBytes?
  rw [vtable, fileUnknown, pagesInfo, codePages, globalsSignature, codeLength, argsCount,
    staticsCount, globalsWord, nativesCount, statics, globalsPages, natives, unknown48, unknown50,
    nameHash, refCount, name, stringPages, stringsLength, unknown74, unknown78, unknown80,
    unknown88, unknown90, unknown98, globalBlockCount, globalBlockHashes]
  rfl

/-- The two parts of the globals word do not mix; of the block, the low 14 bits are left. -/
theorem toNat_packGlobals
    {length : Nat}
    (lengthFits : length % 2 ^ 32 ≤ maxGlobals)
    (block : UInt32) :
    (packGlobals length block).toNat = length % 2 ^ 32 + 2 ^ 18 * (block.toNat % 2 ^ 14) := by
  have small : length % 2 ^ 32 < 2 ^ 18 := Nat.lt_of_le_of_lt lengthFits (by decide)
  have shifted : block.toNat <<< 18 % 2 ^ 32 = (block.toNat % 2 ^ 14) <<< 18 := by
    simp only [Nat.shiftLeft_eq]
    omega
  unfold packGlobals
  rw [UInt32.toNat_or, UInt32.toNat_shiftLeft, UInt32.toNat_ofNat']
  simp only [UInt32.reduceToNat, Nat.reduceMod, shifted]
  exact Bytes.or_shiftLeft_eq_add _ _ _ small

theorem globalsLength_eq (header : Header) :
    header.globalsLength = header.globalsWord.toNat % 2 ^ 18 := by
  unfold globalsLength
  rw [UInt32.toNat_and]
  exact Nat.and_two_pow_sub_one_eq_mod _ 18

theorem toNat_globalsBlock (header : Header) :
    header.globalsBlock.toNat = header.globalsWord.toNat / 2 ^ 18 := by
  unfold globalsBlock
  rw [UInt32.toNat_shiftRight]
  exact Nat.shiftRight_eq_div_pow _ 18

end Header

/-! ## The globals word of a written container -/

namespace Script

variable {script : Script}

theorem globalsCount_eq_globalsLength
    (fits : script.globalsLength < 2 ^ 32) :
    script.globalsCount = script.globalsLength :=
  Nat.mod_eq_of_lt fits

theorem globalsLength_header
    (countFits : script.globalsCount ≤ Header.maxGlobals)
    (layout : Layout) :
    (script.header layout).globalsLength = script.globalsCount := by
  have small : script.globalsCount < 2 ^ 18 := Nat.lt_of_le_of_lt countFits (by decide)
  have packed := Header.toNat_packGlobals countFits script.globalsBlock
  rw [Header.globalsLength_eq, header, packed]
  unfold globalsCount at small ⊢
  omega

theorem toNat_globalsBlock_header
    (countFits : script.globalsCount ≤ Header.maxGlobals)
    (layout : Layout) :
    (script.header layout).globalsBlock.toNat = script.globalsBlock.toNat % 2 ^ 14 := by
  have small : script.globalsCount < 2 ^ 18 := Nat.lt_of_le_of_lt countFits (by decide)
  have packed := Header.toNat_packGlobals countFits script.globalsBlock
  rw [Header.toNat_globalsBlock, header, packed]
  unfold globalsCount at small
  omega

theorem ofBytes?_of_write
    {written : Bytes}
    (wrote : script.write = .ok written) :
    Header.ofBytes? written = some (script.header script.layout) :=
  Header.ofBytes?_eq (holds_of_write wrote).1

/-- A container is written exactly if the number of globals, counted in 32 bits, fits in its part of
the globals word; no block is refused.  The word is split into that count and the low 14 bits of the
block, so that both numbers are read back exactly if neither was cut off. -/
theorem globalsWord_of_write (script : Script) :
    ((∃ written, script.write = .ok written) ↔ script.globalsLength % 2 ^ 32 < 2 ^ 18) ∧
      ∀ written, script.write = .ok written →
        ∃ header, Header.ofBytes? written = some header ∧
          header.globalsLength = script.globalsLength % 2 ^ 32 ∧
          header.globalsBlock.toNat = script.globalsBlock.toNat % 2 ^ 14 ∧
          (header.globalsLength = script.globalsLength ∧
              header.globalsBlock = script.globalsBlock ↔
            script.globalsLength < 2 ^ 32 ∧ script.globalsBlock.toNat < 2 ^ 14) := by
  constructor
  · have bound : script.globalsCount ≤ Header.maxGlobals ↔ script.globalsLength % 2 ^ 32 < 2 ^ 18 :=
      Nat.lt_succ_iff.symm
    rw [← bound]
    constructor
    · rintro ⟨written, wrote⟩
      exact (write_eq_ok_iff.mp wrote).1
    · intro countFits
      exact ⟨_, write_eq_ok_iff.mpr ⟨countFits, rfl⟩⟩
  · intro written wrote
    have countFits := (write_eq_ok_iff.mp wrote).1
    have length := globalsLength_header countFits script.layout
    have block := toNat_globalsBlock_header countFits script.layout
    refine ⟨_, ofBytes?_of_write wrote, length, block, ?_⟩
    rw [← UInt32.toNat_inj, length, block]
    unfold globalsCount
    omega

/-- A block of more than 14 bits is written without an error and read back as another one. -/
theorem globalsBlock_write_oversized :
    let script : Script := { globalsBlock := 0x4000 }
    (script.write.toOption.bind Header.ofBytes?).map Header.globalsBlock = some 0 := by
  decide +kernel

/-- Globals and a block that just fit are kept. -/
theorem globalsWord_of_write_largestBlock :
    let script : Script := { globalsBlock := 0x3FFF, globalsPages := ⟨#[#[7, 7], #[], #[7]]⟩ }
    ∃ written header, script.write = .ok written ∧ Header.ofBytes? written = some header ∧
      header.globalsLength = 3 ∧ header.globalsBlock = 0x3FFF := by
  intro script
  obtain ⟨accepted, split⟩ := globalsWord_of_write script
  obtain ⟨written, wrote⟩ := accepted.mpr (by decide +kernel)
  obtain ⟨header, isHeader, -, -, kept⟩ := split written wrote
  obtain ⟨length, block⟩ := kept.mpr ⟨by decide +kernel, by decide⟩
  exact ⟨written, header, wrote, isHeader, length, block⟩

end Script
end ScriptBytecode
