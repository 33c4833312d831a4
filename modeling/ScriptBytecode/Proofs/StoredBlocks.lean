import ScriptBytecode.Deflate.Inflate
import ScriptBytecode.Deflate.Stored
import ScriptBytecode.Proofs.HeldBytes

/-!
# Inflating stored blocks

A stored block is inflated to its content, wherever it stands in the data and whatever follows it.
So data that is deflated to a row of stored blocks is inflated to itself.
-/

namespace ScriptBytecode
namespace Deflate

variable {data : Bytes} {index : Nat}

/-! ## Integers among the bits -/

/-- Bits of one byte are read as the integer they make. -/
theorem readBits?_of_byte
    {byte : UInt8}
    (isByte : data[index]? = some byte)
    (offset count : Nat)
    (inByte : offset + count ≤ 8) :
    readBits? data count (8 * index + offset) =
      some (byte.toNat / 2 ^ offset % 2 ^ count, 8 * index + offset + count) := by
  induction count generalizing offset with
  | zero => simp [readBits?, Nat.mod_one]
  | succ count ih =>
      have atByte : (8 * index + offset) / 8 = index := by omega
      have atBit : (8 * index + offset) % 8 = offset := by omega
      have first : readBit? data (8 * index + offset) =
          some (byte.toNat / 2 ^ offset % 2, 8 * index + (offset + 1)) := by
        rw [readBit?, atByte, atBit, isByte, Option.map_some, Nat.shiftRight_eq_div_pow]
        rfl
      have later := ih (offset + 1) (by omega)
      have whole : byte.toNat / 2 ^ offset % 2 + 2 * (byte.toNat / 2 ^ (offset + 1) % 2 ^ count) =
          byte.toNat / 2 ^ offset % 2 ^ (count + 1) := by
        rw [Nat.pow_succ, Nat.pow_succ', Nat.mod_mul, Nat.div_div_eq_div_mul]
      have stop : 8 * index + (offset + 1) + count = 8 * index + offset + (count + 1) := by omega
      rw [readBits?, first]
      simp only [Option.bind_eq_bind, Option.bind_some, later, whole, stop, Option.pure_def]

/-- An integer is read in two parts, the low one first. -/
theorem readBits?_add (data : Bytes) (low high position : Nat) :
    readBits? data (low + high) position =
      (readBits? data low position).bind fun first =>
        (readBits? data high first.2).map fun second =>
          (first.1 + 2 ^ low * second.1, second.2) := by
  induction low generalizing position with
  | zero => simp [readBits?]
  | succ low ih =>
      rw [Nat.succ_add, readBits?, readBits?]
      cases readBit? data position with
      | none => rfl
      | some bit =>
          simp only [Option.bind_eq_bind, Option.bind_some, ih, Option.pure_def]
          cases readBits? data low bit.2 with
          | none => rfl
          | some first =>
              simp only [Option.bind_some]
              cases readBits? data high first.2 with
              | none => rfl
              | some second =>
                  simp only [Option.map_some, Option.bind_some, Nat.mul_add, Nat.pow_succ',
                    Nat.mul_assoc, Nat.add_assoc]

/-- Two bytes are read as the word they store. -/
theorem readBits?_word
    {value : UInt16}
    (holds : Segment.Holds data index (Bytes.ofUInt16 value)) :
    readBits? data 16 (8 * index) = some (value.toNat, 8 * (index + 2)) := by
  have bound : value.toNat < 2 ^ 16 := value.toNat_lt
  have low : data[index]? = some value.toUInt8 := holds.getElem?_zero_eq (Nat.zero_lt_succ _)
  have high : data[index + 1]? = some (value >>> 8).toUInt8 :=
    holds.getElem?_eq 1 (Nat.one_lt_two)
  have first := readBits?_of_byte low 0 8 (Nat.le_refl _)
  have second := readBits?_of_byte high 0 8 (Nat.le_refl _)
  have parts := readBits?_add data 8 8 (8 * index)
  rw [Nat.add_zero] at first second
  rw [parts, first, Option.bind_some]
  simp only
  rw [← Nat.mul_succ, second]
  simp only [Option.map_some, UInt16.toNat_toUInt8, UInt16.toNat_shiftRight, UInt16.reduceToNat,
    Nat.reduceMod, Nat.shiftRight_eq_div_pow, Option.some.injEq, Prod.mk.injEq]
  omega

/-! ## Blocks -/

theorem toList_storedBlock (final : Bool) (content : Bytes) :
    (storedBlock final content).toList =
      [if final then 1 else 0] ++ (Bytes.ofUInt16 (UInt16.ofNat content.size) ++
        (Bytes.ofUInt16 (~~~UInt16.ofNat content.size) ++ content.toList)) := by
  simp [storedBlock]

theorem size_storedBlock (final : Bool) (content : Bytes) :
    (storedBlock final content).size = 5 + content.size := by
  rw [← Array.length_toList, toList_storedBlock]
  simp [Bytes.ofUInt16]
  omega

section StoredBlock

variable {start : Nat} {final : Bool} {content : Bytes}

variable (holds : Segment.Holds data start (storedBlock final content).toList)

include holds

/-- A stored block in the data says whether it is the final one, and that it is stored. -/
theorem readBits?_storedBlock :
    readBits? data 1 (8 * start) = some (final.toNat, 8 * start + 1) ∧
      readBits? data 2 (8 * start + 1) = some (0, 8 * start + 3) := by
  rw [toList_storedBlock] at holds
  have first := holds.left.getElem?_zero_eq (Nat.zero_lt_succ _)
  have mark := readBits?_of_byte first 0 1 (by decide)
  have type := readBits?_of_byte first 1 2 (by decide)
  rw [Nat.add_zero] at mark
  rw [mark, type]
  cases final <;> exact ⟨rfl, rfl⟩

/-- The content of a stored block is appended to the output. -/
theorem inflateStored_storedBlock
    (fits : content.size ≤ maxStored)
    (output : Bytes) :
    inflateStored data (8 * start + 3) output =
      some (8 * (start + (storedBlock final content).size), output ++ content) := by
  have inside := holds.inside
  rw [Array.length_toList, size_storedBlock] at inside
  rw [toList_storedBlock] at holds
  have length := readBits?_word holds.right.left
  have complement := readBits?_word holds.right.right.left
  have isContent := holds.right.right.right.extract_eq
  have isLength : (UInt16.ofNat content.size).toNat = content.size := by
    rw [UInt16.toNat_ofNat']
    unfold maxStored at fits
    omega
  have isComplement : (~~~UInt16.ofNat content.size).toNat = 0xFFFF - content.size := by
    rw [UInt16.toNat_not, isLength]
    rfl
  have aligned : (8 * start + 3 + 7) / 8 = start + 1 := by omega
  have sums : content.size + (0xFFFF - content.size) = 0xFFFF := by
    unfold maxStored at fits
    omega
  rw [isLength] at length
  rw [isComplement] at complement
  simp only [Bytes.ofUInt16, List.length_cons, List.length_nil] at length complement isContent
  simp only [inflateStored, aligned, length, complement, Option.bind_eq_bind, Option.bind_some]
  have stop : start + 1 + 4 + content.size = start + (5 + content.size) := by omega
  rw [if_pos ⟨sums, by omega⟩, isContent, size_storedBlock, stop]
  rfl

/-- A stored block in the data is inflated, and inflating goes on behind it unless it is final. -/
theorem inflateBlocks_storedBlock
    (fits : content.size ≤ maxStored)
    (steps : Nat)
    (output : Bytes) :
    inflateBlocks data (steps + 1) (8 * start) output =
      if final then some (output ++ content)
      else inflateBlocks data steps (8 * (start + (storedBlock final content).size))
        (output ++ content) := by
  obtain ⟨mark, type⟩ := readBits?_storedBlock holds
  have stored : inflateBlock data 0 (8 * start + 3) output = _ :=
    inflateStored_storedBlock holds fits output
  simp only [inflateBlocks, mark, type, stored]
  cases final <;> rfl

omit holds

/-- A final block at the start of the data is all that is inflated. -/
theorem inflate?_storedBlock
    (holds : Segment.Holds data 0 (storedBlock true content).toList)
    (fits : content.size ≤ maxStored) :
    inflate? data = some content := by
  have inside := holds.inside
  rw [Array.length_toList, size_storedBlock] at inside
  obtain ⟨steps, isSteps⟩ : ∃ steps, 8 * data.size = steps + 1 := ⟨8 * data.size - 1, by omega⟩
  rw [inflate?, isSteps]
  exact (inflateBlocks_storedBlock holds fits steps #[]).trans (by simp)

end StoredBlock

/-- Data that starts with a block of the reserved type is not inflated. -/
theorem inflate?_eq_none_of_reserved
    {byte : UInt8}
    (isByte : data[0]? = some byte)
    (reserved : byte.toNat / 2 % 4 = 3) :
    inflate? data = none := by
  have mark := readBits?_of_byte isByte 0 1 (by decide)
  have type := readBits?_of_byte isByte 1 2 (by decide)
  have isReserved : byte.toNat / 2 ^ 1 % 2 ^ 2 = 3 := reserved
  rw [isReserved] at type
  rw [inflate?]
  cases 8 * data.size with
  | zero => rfl
  | succ steps =>
      simp only [Nat.mul_zero, Nat.add_zero, Nat.zero_add] at mark type
      simp only [inflateBlocks, mark, type, inflateBlock]

/-! ## Rows of blocks -/

/-- The part of the data that the stored block at an index holds. -/
def storedPart (data : Bytes) (index : Nat) : Bytes :=
  data.extract (index * maxStored) ((index + 1) * maxStored)

theorem size_storedPart_le (data : Bytes) (index : Nat) :
    (storedPart data index).size ≤ maxStored := by
  rw [storedPart, Array.size_extract, Nat.add_one_mul]
  omega

/-- Stored data is a row of blocks, one for each part of the data. -/
theorem toList_store (data : Bytes) :
    (store data).toList = (List.range ((data.size - 1) / maxStored + 1)).flatMap fun index =>
      (storedBlock (index = (data.size - 1) / maxStored) (storedPart data index)).toList := by
  have folded : ∀ (block : Nat → Bytes) (indices : List Nat) (blocks : Bytes),
      (indices.foldl (fun blocks index => blocks ++ block index) blocks).toList =
        blocks.toList ++ indices.flatMap fun index => (block index).toList := by
    intro block indices
    induction indices with
    | nil => simp
    | cons index rest ih =>
        intro blocks
        rw [List.foldl_cons, ih]
        simp
  exact folded _ _ _

/-- Data that is too large for one block starts with a full block that is not final. -/
theorem exists_toList_store
    {data : Bytes}
    (large : maxStored < data.size) :
    ∃ rest, (store data).toList =
      (storedBlock false (data.extract 0 maxStored)).toList ++ rest := by
  have notLast : 0 ≠ (data.size - 1) / maxStored := by
    unfold maxStored at large ⊢
    omega
  rw [toList_store, List.range_succ_eq_map, List.flatMap_cons, decide_eq_false notLast]
  exact ⟨_, by rw [storedPart, Nat.zero_mul, Nat.zero_add, Nat.one_mul]⟩

/-- Inflating a row of blocks from an index on completes the data.  Every block takes more than a
bit, so as many steps as there are bits left are enough. -/
theorem inflateBlocks_row
    {data stored : Bytes} {last : Nat}
    (isLast : (data.size - 1) / maxStored = last)
    {remaining : Nat}
    (isIndex : index + remaining = last)
    {start : Nat}
    (holds : Segment.Holds stored start
      ((List.range' index (remaining + 1)).flatMap fun index =>
        (storedBlock (index = last) (storedPart data index)).toList))
    {steps : Nat}
    (enough : 8 * stored.size ≤ steps + 8 * start) :
    inflateBlocks stored steps (8 * start) (data.extract 0 (index * maxStored)) = some data := by
  have joined : ∀ index, data.extract 0 (index * maxStored) ++ storedPart data index =
      data.extract 0 ((index + 1) * maxStored) := by
    intro index
    rw [storedPart, Array.extract_append_extract, Nat.zero_min,
      Nat.max_eq_right (Nat.mul_le_mul_right _ (Nat.le_succ index))]
  induction remaining generalizing index start steps with
  | zero =>
      rw [Nat.add_zero] at isIndex
      have complete : data.size ≤ (index + 1) * maxStored := by
        rw [isIndex, ← isLast]
        unfold maxStored
        omega
      rw [List.range'_succ, List.flatMap_cons] at holds
      have inside := holds.left.inside
      rw [Array.length_toList, size_storedBlock] at inside
      obtain ⟨fewer, rfl⟩ : ∃ fewer, steps = fewer + 1 := ⟨steps - 1, by omega⟩
      rw [inflateBlocks_storedBlock holds.left (size_storedPart_le data index), joined,
        if_pos (decide_eq_true isIndex), Array.extract_eq_self_of_le complete]
  | succ remaining ih =>
      have notLast : index ≠ last := by omega
      rw [List.range'_succ, List.flatMap_cons] at holds
      have inside := holds.left.inside
      have behind := holds.right
      rw [Array.length_toList] at inside behind
      have size := size_storedBlock (index = last) (storedPart data index)
      obtain ⟨fewer, rfl⟩ : ∃ fewer, steps = fewer + 1 := ⟨steps - 1, by omega⟩
      rw [inflateBlocks_storedBlock holds.left (size_storedPart_le data index), joined,
        if_neg (by simpa using notLast)]
      exact ih (by omega) behind (by omega)

/-- Stored data is inflated to the data. -/
theorem inflate?_store (data : Bytes) : inflate? (store data) = some data := by
  have holds : Segment.Holds (store data) 0
      ((List.range' 0 ((data.size - 1) / maxStored + 1)).flatMap fun index =>
        (storedBlock (index = (data.size - 1) / maxStored) (storedPart data index)).toList) := by
    refine ⟨[], [], ?_, rfl⟩
    rw [toList_store, List.range_eq_range', List.nil_append, List.append_nil]
  have inflated := inflateBlocks_row rfl (Nat.zero_add _) holds (Nat.le_add_right _ _)
  rw [Nat.zero_mul, Array.extract_zero] at inflated
  exact inflated

end Deflate
end ScriptBytecode
