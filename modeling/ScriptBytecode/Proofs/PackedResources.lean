import Mathlib.Order.Bounds.Defs
import ScriptBytecode.Proofs.Answers
import ScriptBytecode.Proofs.StoredBlocks
import ScriptBytecode.Resource

/-!
# Packed resource files

A resource file that was packed without a cipher is unpacked to its segment, with zeros up to the
size of the least page that holds it.
-/

namespace ScriptBytecode
namespace Resource

variable {size : Nat} {page : Nat} {flags : UInt32}

/-- A compression that gives back what was deflated. -/
def Compression.Restores (compression : Compression) : Prop :=
  ∀ data, compression.inflate? (compression.deflate data) = some data

theorem Compression.restores_default : Compression.Restores {} :=
  Deflate.inflate?_store

/-! ## Page sizes -/

/-- The size of the least page that holds some number of bytes; no bytes need no page. -/
def LeastPage (size page : Nat) : Prop :=
  if size = 0 then page = 0
  else IsLeast {page | size ≤ page ∧ ∃ exponent ≤ 15, page = 0x20000 * 2 ^ exponent} page

theorem LeastPage.size_le
    (least : LeastPage size page) :
    size ≤ page := by
  unfold LeastPage at least
  split_ifs at least
  · omega
  · exact least.1.1

theorem LeastPage.le_page
    (notEmpty : size ≠ 0)
    (least : LeastPage size page) :
    0x20000 ≤ page := by
  rw [LeastPage, if_neg notEmpty] at least
  obtain ⟨-, exponent, -, rfl⟩ := least.1
  exact Nat.le_mul_of_pos_right _ (Nat.two_pow_pos exponent)

theorem flagsSize_ofNat {shift : Nat} (small : shift < 16) :
    flagsSize (UInt32.ofNat (16 + shift)) = 0x20000 * 2 ^ shift := by
  have single : ∀ shift < 16, flagsSize (UInt32.ofNat (16 + shift)) = 0x20000 * 2 ^ shift := by
    decide +kernel
  exact single shift small

/-- The flags of a single page: none for no bytes, those of the first size that is large enough, or
an error if no size is. -/
theorem singlePageFlags_cases (size : Nat) :
    (size = 0 ∧ singlePageFlags size = .ok 0) ∨
      (size ≠ 0 ∧ ∃ shift < 16, size ≤ 0x20000 * 2 ^ shift ∧
        (∀ smaller < shift, 0x20000 * 2 ^ smaller < size) ∧
        singlePageFlags size = .ok (UInt32.ofNat (16 + shift))) ∨
      2 ^ 32 < size ∧ singlePageFlags size = .error (.resource (.tooLarge size)) := by
  unfold singlePageFlags
  split_ifs with isEmpty
  · exact .inl ⟨isEmpty, rfl⟩
  · right
    split
    · rename_i shift found
      rw [List.find?_range_eq_some] at found
      obtain ⟨holds, small, smaller⟩ := found
      simp only [decide_eq_true_eq, Nat.shiftLeft_eq, List.mem_range, Bool.not_eq_true',
        decide_eq_false_iff_not, Nat.not_le] at holds small smaller
      exact .inl ⟨isEmpty, shift, small, holds, smaller, rfl⟩
    · rename_i notFound
      rw [List.find?_range_eq_none] at notFound
      have tooSmall := notFound 15 (by decide)
      simp only [Nat.reduceShiftLeft, Bool.not_eq_true', decide_eq_false_iff_not,
        Nat.not_le] at tooSmall
      exact .inr ⟨tooSmall, rfl⟩

/-- There are flags for at most four gibibytes. -/
theorem exists_singlePageFlags_iff (size : Nat) :
    (∃ flags, singlePageFlags size = .ok flags) ↔ size ≤ 2 ^ 32 := by
  rcases singlePageFlags_cases size with
    ⟨isEmpty, isFlags⟩ | ⟨-, shift, small, holds, -, isFlags⟩ | ⟨large, isError⟩
  · exact iff_of_true ⟨_, isFlags⟩ (by omega)
  · have most : 2 ^ shift ≤ 2 ^ 15 := Nat.pow_le_pow_right Nat.two_pos (by omega)
    exact iff_of_true ⟨_, isFlags⟩ (by omega)
  · refine iff_of_false ?_ (Nat.not_le.mpr large)
    rintro ⟨flags, isFlags⟩
    rw [isError] at isFlags
    cases isFlags

theorem singlePageFlags_of_large
    (large : 2 ^ 32 < size) :
    singlePageFlags size = .error (.resource (.tooLarge size)) := by
  have noFlags := mt (exists_singlePageFlags_iff size).mp (Nat.not_le.mpr large)
  rcases singlePageFlags_cases size with
    ⟨-, isFlags⟩ | ⟨-, _, -, -, -, isFlags⟩ | ⟨-, isError⟩
  · exact absurd ⟨_, isFlags⟩ noFlags
  · exact absurd ⟨_, isFlags⟩ noFlags
  · exact isError

/-- The flags of a single page describe the least page, and leave room for a version. -/
theorem leastPage_of_singlePageFlags
    (isFlags : singlePageFlags size = .ok flags) :
    LeastPage size (flagsSize flags) ∧ flags.toNat < 2 ^ 28 := by
  rcases singlePageFlags_cases size with
    ⟨isEmpty, isZero⟩ | ⟨notEmpty, shift, small, holds, smaller, isShift⟩ | ⟨-, isError⟩
  · rw [isZero] at isFlags
    cases isFlags
    rw [LeastPage, if_pos isEmpty]
    exact ⟨by decide, by decide⟩
  · rw [isShift] at isFlags
    cases isFlags
    rw [LeastPage, if_neg notEmpty, flagsSize_ofNat small, UInt32.toNat_ofNat']
    refine ⟨⟨⟨holds, shift, by omega, rfl⟩, ?_⟩, by omega⟩
    rintro page ⟨holdsToo, exponent, -, rfl⟩
    rcases Nat.lt_or_ge exponent shift with below | notBelow
    · exact absurd (smaller exponent below) (Nat.not_lt.mpr holdsToo)
    · exact Nat.mul_le_mul_left _ (Nat.pow_le_pow_right Nat.two_pos notBelow)
  · rw [isError] at isFlags
    cases isFlags

/-! ## Headers -/

/-- A version in the high bits of the flags does not count for the size. -/
theorem or_shiftLeft_and
    (small : flags.toNat < 2 ^ 28)
    (version : UInt32) :
    (flags ||| version <<< 28) &&& 0x0FFFFFFF = flags := by
  apply UInt32.toNat_inj.mp
  have shifted : (version <<< 28).toNat % 2 ^ 28 = 0 := by
    rw [UInt32.toNat_shiftLeft]
    change version.toNat <<< 28 % 2 ^ 32 % 2 ^ 28 = 0
    rw [Nat.shiftLeft_eq]
    omega
  calc ((flags ||| version <<< 28) &&& 0x0FFFFFFF).toNat
      = (flags.toNat ||| (version <<< 28).toNat) &&& 2 ^ 28 - 1 := by
        rw [UInt32.toNat_and, UInt32.toNat_or]
        rfl
    _ = flags.toNat := by
        rw [Nat.and_two_pow_sub_one_eq_mod, Nat.or_mod_two_pow, shifted, Nat.or_zero,
          Nat.mod_eq_of_lt small]

namespace Packing

variable {packing reader : Packing} {file : Bytes}

theorem toList_header (packing : Packing) (flags : UInt32) :
    (packing.header flags).toList =
      Bytes.ofUInt32 magic ++ (Bytes.ofUInt32 packing.version ++
        (Bytes.ofUInt32 (flags ||| (packing.version >>> 4 &&& 0xF) <<< 28) ++
          Bytes.ofUInt32 ((packing.version &&& 0xF) <<< 28))) := by
  simp [header]

theorem size_header (packing : Packing) (flags : UInt32) :
    (packing.header flags).size = headerLength :=
  rfl

theorem extract_header_append (packing : Packing) (flags : UInt32) (payload : Bytes) :
    (packing.header flags ++ payload).extract headerLength
      (packing.header flags ++ payload).size = payload := by
  rw [Array.size_append, ← size_header packing flags]
  simp

/-- The words of a header are read back. -/
theorem uint32At?_header_append (packing : Packing) (flags : UInt32) (payload : Bytes) :
    Bytes.uint32At? (packing.header flags ++ payload) 0 = some magic ∧
      Bytes.uint32At? (packing.header flags ++ payload) 4 = some packing.version ∧
      Bytes.uint32At? (packing.header flags ++ payload) 8 =
        some (flags ||| (packing.version >>> 4 &&& 0xF) <<< 28) ∧
      Bytes.uint32At? (packing.header flags ++ payload) 12 =
        some ((packing.version &&& 0xF) <<< 28) := by
  have holds : Segment.Holds (packing.header flags ++ payload) 0 (packing.header flags).toList :=
    ⟨[], payload.toList, by simp, rfl⟩
  rw [toList_header] at holds
  have second := holds.right.left
  have third := holds.right.right.left
  have fourth := holds.right.right.right
  simp only [Bytes.length_ofUInt32] at second third fourth
  exact ⟨holds.left.uint32At?_eq, second.uint32At?_eq, third.uint32At?_eq, fourth.uint32At?_eq⟩

/-- What is unpacked behind a header of the right version. -/
theorem unpack_header_append
    (sameVersion : reader.version = packing.version)
    {flags : UInt32}
    (small : flags.toNat < 2 ^ 28)
    (payload : Bytes) :
    reader.unpack (packing.header flags ++ payload) =
      (reader.inflatePayload payload (payload.size + headerLength)).map
        (·.extract 0 (flagsSize flags)) := by
  obtain ⟨first, second, third, fourth⟩ := uint32At?_header_append packing flags payload
  simp only [unpack, first, second, third, fourth, ne_eq, not_true_eq_false, if_false,
    sameVersion, or_shiftLeft_and small, extract_header_append]
  rw [Array.size_append, size_header, Nat.add_comm]
  cases reader.inflatePayload payload (payload.size + headerLength) <;> rfl

theorem pack_of_unkeyed
    (unkeyed : packing.keyed? = none)
    (segment : Bytes) :
    packing.pack segment = (singlePageFlags segment.size).map fun flags =>
      packing.header flags ++
        packing.compression.deflate
          (segment ++ Array.replicate (flagsSize flags - segment.size) 0) := by
  rw [pack, unkeyed]
  cases singlePageFlags segment.size <;> rfl

/-! ## Files that are refused -/

theorem uint32At?_eq_none
    {position : Nat}
    (short : file.size < position + 4) :
    Bytes.uint32At? file position = none := by
  have isNone : file[position + 3]? = none := Array.getElem?_eq_none (by omega)
  simp [Bytes.uint32At?, isNone]

theorem exists_uint32At?_eq
    (file : Bytes)
    (position : Nat)
    (long : position + 4 ≤ file.size) :
    ∃ word, Bytes.uint32At? file position = some word := by
  have first : position < file.size := by omega
  have second : position + 1 < file.size := by omega
  have third : position + 2 < file.size := by omega
  have fourth : position + 3 < file.size := by omega
  exact ⟨_, by
    simp only [Bytes.uint32At?, Array.getElem?_eq_getElem first, Array.getElem?_eq_getElem second,
      Array.getElem?_eq_getElem third, Array.getElem?_eq_getElem fourth]
    rfl⟩

/-- Why a reader of some version refuses a file for its header. -/
inductive HeaderFault (version : UInt32) (file : Bytes) : ResourceFault → Prop
  | shortFile (short : file.size < headerLength) : HeaderFault version file .shortFile
  | badMagic
      {found : UInt32}
      (long : headerLength ≤ file.size)
      (isFound : Bytes.uint32At? file 0 = some found)
      (isWrong : found ≠ magic) :
      HeaderFault version file (.badMagic found)
  | versionMismatch
      {found : UInt32}
      (long : headerLength ≤ file.size)
      (hasMagic : Bytes.uint32At? file 0 = some magic)
      (isFound : Bytes.uint32At? file 4 = some found)
      (isWrong : found ≠ version) :
      HeaderFault version file (.versionMismatch found version)

theorem HeaderFault.unpack_eq
    {fault : ResourceFault}
    (isFault : HeaderFault reader.version file fault) :
    reader.unpack file = .error (.resource fault) := by
  cases isFault with
  | shortFile short =>
      rw [unpack, uint32At?_eq_none short]
      cases Bytes.uint32At? file 0 <;> cases Bytes.uint32At? file 4 <;>
        cases Bytes.uint32At? file 8 <;> rfl
  | badMagic long isFound isWrong =>
      unfold headerLength at long
      obtain ⟨version, isVersion⟩ := exists_uint32At?_eq file 4 (by omega)
      obtain ⟨flags, isFlags⟩ := exists_uint32At?_eq file 8 (by omega)
      obtain ⟨other, isOther⟩ := exists_uint32At?_eq file 12 (by omega)
      simp only [unpack, isFound, isVersion, isFlags, isOther, if_pos isWrong]
  | versionMismatch long hasMagic isFound isWrong =>
      unfold headerLength at long
      obtain ⟨flags, isFlags⟩ := exists_uint32At?_eq file 8 (by omega)
      obtain ⟨other, isOther⟩ := exists_uint32At?_eq file 12 (by omega)
      simp only [unpack, hasMagic, isFound, isFlags, isOther, ne_eq, not_true_eq_false, if_false,
        if_pos isWrong]

theorem headerFault_of_version
    (isOther : packing.version ≠ reader.version)
    (flags : UInt32)
    (payload : Bytes) :
    HeaderFault reader.version (packing.header flags ++ payload)
      (.versionMismatch packing.version reader.version) := by
  obtain ⟨first, second, -, -⟩ := uint32At?_header_append packing flags payload
  refine .versionMismatch ?_ first second isOther
  rw [Array.size_append, size_header]
  exact Nat.le_add_right _ _

/-! ## Files without a cipher -/

/-- What a packing that applies no cipher does with segments and files. -/
structure Unencrypted (packing : Packing) : Prop where
  pack_iff : ∀ segment, (∃ file, packing.pack segment = .ok file) ↔ segment.size ≤ 2 ^ 32
  pack_large : ∀ segment, 2 ^ 32 < segment.size →
    packing.pack segment = .error (.resource (.tooLarge segment.size))
  /-- Any reader of the same version unpacks the file, also one with a cipher. -/
  unpack_pack : ∀ segment file, packing.pack segment = .ok file →
    ∃ page, LeastPage segment.size page ∧
      ∀ reader : Packing, reader.version = packing.version →
        reader.compression = packing.compression →
        reader.unpack file = .ok (segment ++ Array.replicate (page - segment.size) 0)
  unpack_version : ∀ segment file, packing.pack segment = .ok file →
    ∀ reader : Packing, reader.version ≠ packing.version →
      reader.unpack file =
        .error (.resource (.versionMismatch packing.version reader.version))
  unpack_fault : ∀ (reader : Packing) file fault, HeaderFault reader.version file fault →
    reader.unpack file = .error (.resource fault)

theorem size_padded
    {segment : Bytes} {page : Nat}
    (least : LeastPage segment.size page) :
    (segment ++ Array.replicate (page - segment.size) 0).size = page := by
  rw [Array.size_append, Array.size_replicate, Nat.add_sub_cancel' least.size_le]

/-- Without a cipher, segments of at most four gibibytes are packed, and unpacked with zeros up to
the least page that holds them; files with another header are refused. -/
theorem unencrypted_of_unkeyed
    (packing : Packing)
    (unkeyed : packing.keyed? = none)
    (restores : packing.compression.Restores) :
    Unencrypted packing where
  pack_iff segment := by
    rw [pack_of_unkeyed unkeyed, exists_map_eq_ok_iff, exists_singlePageFlags_iff]
  pack_large segment large := by
    rw [pack_of_unkeyed unkeyed, singlePageFlags_of_large large]
    rfl
  unpack_pack segment file packed := by
    rw [pack_of_unkeyed unkeyed, map_eq_ok_iff] at packed
    obtain ⟨flags, isFlags, rfl⟩ := packed
    obtain ⟨least, small⟩ := leastPage_of_singlePageFlags isFlags
    refine ⟨flagsSize flags, least, ?_⟩
    intro reader sameVersion sameCompression
    rw [unpack_header_append sameVersion small, inflatePayload, sameCompression, restores]
    refine congrArg Except.ok (Array.extract_eq_self_of_le ?_)
    exact Nat.le_of_eq (size_padded least)
  unpack_version segment file packed reader isOther := by
    rw [pack_of_unkeyed unkeyed, map_eq_ok_iff] at packed
    obtain ⟨flags, -, rfl⟩ := packed
    exact (headerFault_of_version isOther.symm flags _).unpack_eq
  unpack_fault _ _ _ isFault := isFault.unpack_eq

theorem unencrypted_default :
    Packing.keyed? {} = none ∧ Compression.Restores {} ∧ Unencrypted {} :=
  ⟨rfl, Compression.restores_default,
    unencrypted_of_unkeyed {} rfl Compression.restores_default⟩

end Packing
end Resource
end ScriptBytecode
