import ScriptBytecode.NativeTable
import ScriptBytecode.Proofs.Words

/-!
# Undoing the disguise of native hashes

Reading a stored native table gives the hashes it was made of, and storing the hashes that were read
gives the stored table.  Each step of the disguise is undone on its own: a rotation by the rotation
back, and the chain of bytes word by word, where the carry into a word is the last byte of the
stored word before it.
-/

namespace ScriptBytecode
namespace NativeTable

variable {word amount : UInt64}

/-! ## Rotations -/

/-- A rotation exchanges the low bits and the high bits of a word. -/
theorem toNat_rotateRight
    (positive : 0 < amount.toNat)
    (small : amount.toNat < 64) :
    (rotateRight word amount).toNat =
      word.toNat / 2 ^ amount.toNat +
        2 ^ (64 - amount.toNat) * (word.toNat % 2 ^ amount.toNat) := by
  have complement : (64 - amount).toNat = 64 - amount.toNat :=
    UInt64.toNat_sub_of_le _ _ (UInt64.le_iff_toNat_le.mpr (Nat.le_of_lt small))
  have divided : 2 ^ 64 = 2 ^ amount.toNat * 2 ^ (64 - amount.toNat) := by
    rw [← Nat.pow_add, Nat.add_sub_cancel' (Nat.le_of_lt small)]
  have highBits : word.toNat / 2 ^ amount.toNat < 2 ^ (64 - amount.toNat) := by
    rw [Nat.div_lt_iff_lt_mul (Nat.two_pow_pos _), Nat.mul_comm, ← divided]
    exact word.toNat_lt
  rw [rotateRight, UInt64.toNat_or, UInt64.toNat_shiftRight, UInt64.toNat_shiftLeft, complement,
    Nat.mod_eq_of_lt small, Nat.mod_eq_of_lt (show 64 - amount.toNat < 64 by omega),
    Nat.shiftRight_eq_div_pow, Nat.shiftLeft_eq, divided, Nat.mul_mod_mul_right,
    ← Nat.shiftLeft_eq, Bytes.or_shiftLeft_eq_add _ _ _ highBits]

theorem rotateLeft_eq (word amount : UInt64) :
    rotateLeft word amount = rotateRight word (64 - amount) := by
  have twice : 64 - (64 - amount) = amount := by grind
  rw [rotateLeft, rotateRight, twice, UInt64.or_comm]

theorem rotateLeft_rotateRight
    (small : amount.toNat < 64) :
    rotateLeft (rotateRight word amount) amount = word := by
  have complement : (64 - amount).toNat = 64 - amount.toNat :=
    UInt64.toNat_sub_of_le _ _ (UInt64.le_iff_toNat_le.mpr (Nat.le_of_lt small))
  rw [rotateLeft_eq]
  apply UInt64.toNat_inj.mp
  rcases Nat.eq_zero_or_pos amount.toNat with zero | positive
  · obtain rfl : amount = 0 := UInt64.toNat_inj.mp zero
    have full : (64 - 0 : UInt64) = 64 := rfl
    simp [full, rotateRight]
  · have highBits : word.toNat / 2 ^ amount.toNat < 2 ^ (64 - amount.toNat) := by
      rw [Nat.div_lt_iff_lt_mul (Nat.two_pow_pos _), ← Nat.pow_add,
        Nat.sub_add_cancel (Nat.le_of_lt small)]
      exact word.toNat_lt
    rw [toNat_rotateRight (by omega) (by omega), complement,
      toNat_rotateRight positive small, Nat.add_mul_div_left _ _ (Nat.two_pow_pos _),
      Nat.div_eq_of_lt highBits, Nat.add_mul_mod_self_left, Nat.mod_eq_of_lt highBits,
      Nat.zero_add, Nat.sub_sub_self (Nat.le_of_lt small), Nat.mod_add_div]

theorem rotateRight_rotateLeft
    (small : amount.toNat < 64) :
    rotateRight (rotateLeft word amount) amount = word := by
  rcases Nat.eq_zero_or_pos amount.toNat with zero | positive
  · obtain rfl : amount = 0 := UInt64.toNat_inj.mp zero
    have full : (64 - 0 : UInt64) = 64 := rfl
    apply UInt64.toNat_inj.mp
    simp [full, rotateRight, rotateLeft]
  · -- Rotating left and right are the same up to the complement of the amount.
    have complement : (64 - amount).toNat = 64 - amount.toNat :=
      UInt64.toNat_sub_of_le _ _ (UInt64.le_iff_toNat_le.mpr (Nat.le_of_lt small))
    have twice : 64 - (64 - amount) = amount := by grind
    have undone : rotateLeft (rotateRight word (64 - amount)) (64 - amount) = word :=
      rotateLeft_rotateRight (by omega)
    rwa [rotateLeft_eq, twice, ← rotateLeft_eq] at undone

/-! ## Chains of bytes -/

/-- A word combined with itself some places up. -/
def fold (places word : UInt64) : UInt64 :=
  word ^^^ word <<< places

theorem fold_xor (places left right : UInt64) :
    fold places (left ^^^ right) = fold places left ^^^ fold places right := by
  unfold fold
  rw [UInt64.shiftLeft_xor]
  ac_rfl

theorem shiftLeft_comm (word left right : UInt64) :
    word <<< left <<< right = word <<< right <<< left := by
  apply UInt64.toNat_inj.mp
  simp only [UInt64.toNat_shiftLeft, Nat.shiftLeft_eq, Nat.mod_mul_mod]
  rw [Nat.mul_right_comm]

theorem fold_comm (left right word : UInt64) :
    fold left (fold right word) = fold right (fold left word) := by
  unfold fold
  rw [UInt64.shiftLeft_xor, UInt64.shiftLeft_xor, shiftLeft_comm]
  ac_rfl

theorem xor_xor_xor_self (first second third : UInt64) :
    first ^^^ second ^^^ (second ^^^ third) = first ^^^ third := by
  rw [UInt64.xor_assoc, ← UInt64.xor_assoc second, UInt64.xor_self, UInt64.zero_xor]

/-- Folding twice folds twice as far. -/
theorem fold_fold
    {places : UInt64}
    (small : places.toNat + places.toNat < 64)
    (word : UInt64) :
    fold places (fold places word) = fold (places + places) word := by
  unfold fold
  rw [UInt64.shiftLeft_xor, UInt64.shiftLeft_add_of_toNat_lt small, xor_xor_xor_self]

theorem fold_fold_half (word : UInt64) : fold 32 (fold 32 word) = word := by
  have gone : word <<< 32 <<< 32 = 0 := by
    apply UInt64.toNat_inj.mp
    simp only [UInt64.toNat_shiftLeft, Nat.shiftLeft_eq, UInt64.reduceToNat, Nat.reduceMod,
      Nat.reducePow]
    omega
  unfold fold
  rw [UInt64.shiftLeft_xor, xor_xor_xor_self, gone, UInt64.xor_zero]

/-- Folding by a byte leaves one of eight equal bytes. -/
theorem fold_repeated (carry : UInt8) :
    fold 8 (carry.toUInt64 * 0x0101010101010101) = carry.toUInt64 := by
  have small : carry.toNat < 2 ^ 8 := carry.toNat_lt
  have repeated : (carry.toUInt64 * 0x0101010101010101).toNat =
      2 ^ 8 * (carry.toNat * 0x01010101010101) + carry.toNat := by
    simp only [UInt64.toNat_mul, UInt8.toNat_toUInt64, UInt64.reduceToNat]
    omega
  have shifted : ((carry.toUInt64 * 0x0101010101010101) <<< 8).toNat =
      2 ^ 8 * (carry.toNat * 0x01010101010101) + 0 := by
    simp only [UInt64.toNat_shiftLeft, repeated, Nat.shiftLeft_eq, UInt64.reduceToNat,
      Nat.reduceMod, Nat.reducePow]
    omega
  apply UInt64.toNat_inj.mp
  rw [fold, UInt64.toNat_xor, repeated, shifted, UInt8.toNat_toUInt64]
  apply Nat.eq_of_testBit_eq
  intro index
  rw [Nat.testBit_xor, Nat.testBit_two_pow_mul_add _ small,
    Nat.testBit_two_pow_mul_add _ (Nat.two_pow_pos 8)]
  split
  · simp
  · rename_i above
    rw [Bool.xor_self, Nat.testBit_lt_two_pow]
    exact Nat.lt_of_lt_of_le small (Nat.pow_le_pow_right (by decide) (by omega))

/-- The exclusive or of each byte of a word and all bytes below it. -/
def spread (word : UInt64) : UInt64 :=
  fold 32 (fold 16 (fold 8 word))

theorem spread_fold (word : UInt64) : spread (fold 8 word) = word := by
  have eight : (8 + 8 : UInt64) = 16 := rfl
  have sixteen : (16 + 16 : UInt64) = 32 := rfl
  rw [spread, fold_fold (by decide), eight, fold_fold (by decide), sixteen, fold_fold_half]

theorem fold_spread (word : UInt64) : fold 8 (spread word) = word := by
  rw [spread, fold_comm 8 32, fold_comm 8 16]
  exact spread_fold word

theorem spread_xor (left right : UInt64) :
    spread (left ^^^ right) = spread left ^^^ spread right := by
  simp only [spread, fold_xor]

theorem chainWord_eq (carry : UInt8) (word : UInt64) :
    chainWord carry word = spread word ^^^ carry.toUInt64 * 0x0101010101010101 := rfl

theorem unchainWord_eq (carry : UInt8) (stored : UInt64) :
    unchainWord carry stored = fold 8 stored ^^^ carry.toUInt64 := rfl

theorem unchainWord_chainWord (carry : UInt8) (word : UInt64) :
    unchainWord carry (chainWord carry word) = word := by
  rw [unchainWord_eq, chainWord_eq, fold_xor, fold_spread, fold_repeated, UInt64.xor_assoc,
    UInt64.xor_self, UInt64.xor_zero]

theorem chainWord_unchainWord (carry : UInt8) (stored : UInt64) :
    chainWord carry (unchainWord carry stored) = stored := by
  have repeated := spread_fold (carry.toUInt64 * 0x0101010101010101)
  rw [fold_repeated] at repeated
  rw [chainWord_eq, unchainWord_eq, spread_xor, spread_fold, repeated, UInt64.xor_assoc,
    UInt64.xor_self, UInt64.xor_zero]

/-- A map over words with a carry from each word to the next. -/
def mapCarry (output : UInt8 → UInt64 → UInt64) (next : UInt8 → UInt64 → UInt8) :
    UInt8 → List UInt64 → List UInt64
  | _, [] => []
  | carry, word :: rest => output carry word :: mapCarry output next (next carry word) rest

theorem foldl_push_carry
    (output : UInt8 → UInt64 → UInt64)
    (next : UInt8 → UInt64 → UInt8)
    (words : List UInt64)
    (stored : Array UInt64)
    (carry : UInt8) :
    (words.foldl
        (fun ((stored, carry) : Array UInt64 × UInt8) word =>
          (stored.push (output carry word), next carry word))
        (stored, carry)).1.toList =
      stored.toList ++ mapCarry output next carry words := by
  induction words generalizing stored carry with
  | nil => simp [mapCarry]
  | cons word rest ih =>
      rw [List.foldl_cons, ih]
      simp [mapCarry]

theorem toList_chain (words : Array UInt64) (codeLength : Nat) :
    (chain words codeLength).toList =
      mapCarry chainWord (fun carry word => lastByte (chainWord carry word))
        (UInt8.ofNat codeLength) words.toList := by
  have pushed := foldl_push_carry chainWord (fun carry word => lastByte (chainWord carry word))
    words.toList #[] (UInt8.ofNat codeLength)
  rwa [Array.foldl_toList, List.nil_append] at pushed

theorem toList_unchain (entries : Array UInt64) (codeLength : Nat) :
    (unchain entries codeLength).toList =
      mapCarry unchainWord (fun _ entry => lastByte entry) (UInt8.ofNat codeLength)
        entries.toList := by
  have pushed := foldl_push_carry unchainWord (fun _ entry => lastByte entry) entries.toList #[]
    (UInt8.ofNat codeLength)
  rwa [Array.foldl_toList, List.nil_append] at pushed

theorem length_mapCarry
    (output : UInt8 → UInt64 → UInt64)
    (next : UInt8 → UInt64 → UInt8)
    (carry : UInt8)
    (words : List UInt64) :
    (mapCarry output next carry words).length = words.length := by
  induction words generalizing carry with
  | nil => rfl
  | cons word rest ih =>
      rw [mapCarry, List.length_cons, ih, List.length_cons]

theorem unchain_chain (words : Array UInt64) (codeLength : Nat) :
    unchain (chain words codeLength) codeLength = words := by
  apply Array.toList_inj.mp
  rw [toList_unchain, toList_chain]
  generalize UInt8.ofNat codeLength = carry
  induction words.toList generalizing carry with
  | nil => rfl
  | cons word rest ih =>
      rw [mapCarry, mapCarry, unchainWord_chainWord, ih]

theorem chain_unchain (entries : Array UInt64) (codeLength : Nat) :
    chain (unchain entries codeLength) codeLength = entries := by
  apply Array.toList_inj.mp
  rw [toList_chain, toList_unchain]
  generalize UInt8.ofNat codeLength = carry
  induction entries.toList generalizing carry with
  | nil => rfl
  | cons entry rest ih =>
      rw [mapCarry, mapCarry, chainWord_unchainWord, ih]

/-! ## The bytes of chains -/

/-- Each byte is stored combined with the stored byte before it, the first one with the carry. -/
def chainBytes : (carry : UInt8) → (bytes : List UInt8) → List UInt8
  | _, [] => []
  | carry, byte :: rest => (byte ^^^ carry) :: chainBytes (byte ^^^ carry) rest

/-- Undoes `chainBytes`. -/
def unchainBytes : (carry : UInt8) → (stored : List UInt8) → List UInt8
  | _, [] => []
  | carry, byte :: rest => (carry ^^^ byte) :: unchainBytes byte rest

theorem chainBytes_unchainBytes (carry : UInt8) (stored : List UInt8) :
    chainBytes carry (unchainBytes carry stored) = stored := by
  induction stored generalizing carry with
  | nil => rfl
  | cons byte rest ih =>
      have undone : carry ^^^ byte ^^^ carry = byte := by
        rw [UInt8.xor_comm carry, UInt8.xor_assoc, UInt8.xor_self, UInt8.xor_zero]
      rw [unchainBytes, chainBytes, undone, ih]

theorem chainBytes_append (carry : UInt8) (left right : List UInt8) :
    chainBytes carry (left ++ right) =
      chainBytes carry left ++ chainBytes ((chainBytes carry left).getLastD carry) right := by
  induction left generalizing carry with
  | nil => rfl
  | cons byte rest ih =>
      rw [List.cons_append, chainBytes, ih, chainBytes, List.cons_append,
        List.getLastD_cons]

theorem ofUInt64_unchainWord (carry : UInt8) (stored : UInt64) :
    Bytes.ofUInt64 (unchainWord carry stored) = unchainBytes carry (Bytes.ofUInt64 stored) := by
  have bound : stored.toNat < 2 ^ 64 := stored.toNat_lt
  have small : carry.toNat < 2 ^ 8 := carry.toNat_lt
  -- The bytes of the shifted word are those below them, and the carry has one byte only.
  have shifted : Bytes.ofUInt64 (stored <<< 8) = 0 :: (Bytes.ofUInt64 stored).dropLast := by
    simp only [Bytes.ofUInt64, List.dropLast_cons_cons, List.dropLast_singleton,
      List.cons.injEq, and_true, ← UInt8.toNat_inj, UInt64.toNat_toUInt8, UInt64.toNat_shiftRight,
      UInt64.toNat_shiftLeft, UInt64.reduceToNat, UInt8.reduceToNat, Nat.shiftRight_eq_div_pow,
      Nat.shiftLeft_eq, Nat.reduceMod]
    omega
  have alone : Bytes.ofUInt64 carry.toUInt64 = carry :: List.replicate 7 0 := by
    simp only [Bytes.ofUInt64, List.replicate, List.cons.injEq, and_true, ← UInt8.toNat_inj,
      UInt64.toNat_toUInt8, UInt64.toNat_shiftRight, UInt8.toNat_toUInt64, UInt64.reduceToNat,
      UInt8.reduceToNat, Nat.shiftRight_eq_div_pow, Nat.reduceMod]
    omega
  simp only [Bytes.ofUInt64, List.dropLast_cons_cons, List.dropLast_singleton, List.replicate,
    List.cons.injEq, and_true] at shifted alone
  simp [Bytes.ofUInt64, unchainBytes, unchainWord, UInt64.shiftRight_xor, shifted, alone,
    UInt8.xor_comm]

theorem ofUInt64_chainWord (carry : UInt8) (word : UInt64) :
    Bytes.ofUInt64 (chainWord carry word) = chainBytes carry (Bytes.ofUInt64 word) := by
  have undone := ofUInt64_unchainWord carry (chainWord carry word)
  rw [unchainWord_chainWord] at undone
  rw [undone, chainBytes_unchainBytes]

/-- Chaining words chains all their bytes one after the other. -/
theorem flatMap_ofUInt64_chain (words : Array UInt64) (codeLength : Nat) :
    (chain words codeLength).toList.flatMap Bytes.ofUInt64 =
      chainBytes (UInt8.ofNat codeLength) (words.toList.flatMap Bytes.ofUInt64) := by
  rw [toList_chain]
  generalize UInt8.ofNat codeLength = carry
  induction words.toList generalizing carry with
  | nil => rfl
  | cons word rest ih =>
      have last : (Bytes.ofUInt64 (chainWord carry word)).getLastD carry =
          lastByte (chainWord carry word) := rfl
      rw [mapCarry, List.flatMap_cons, List.flatMap_cons, ih, chainBytes_append,
        ← ofUInt64_chainWord, last]

/-! ## Tables -/

/-- The hashes of a table, each rotated by the amount for its index. -/
def rotated (hashes : Array UInt64) (codeLength : Nat) : Array UInt64 :=
  hashes.mapIdx fun index hash => encodeHash hash index codeLength

theorem rotation_lt (index codeLength : Nat) : (rotation index codeLength).toNat < 64 := by
  rw [rotation, UInt64.toNat_ofNat']
  omega

/-- Reading a stored table gives the hashes it was made of. -/
theorem decode_encode (hashes : Array UInt64) (codeLength : Nat) :
    decode (encode hashes codeLength) codeLength = hashes := by
  rw [decode, encode, unchain_chain]
  apply Array.ext
  · simp
  · intro index inTable inHashes
    simp [decodeHash, encodeHash, rotateLeft_rotateRight (rotation_lt index codeLength)]

/-- Storing the hashes that were read gives the stored table. -/
theorem encode_decode (entries : Array UInt64) (codeLength : Nat) :
    encode (decode entries codeLength) codeLength = entries := by
  have unrotated : (decode entries codeLength).mapIdx
      (fun index hash => encodeHash hash index codeLength) = unchain entries codeLength := by
    apply Array.ext
    · simp [decode]
    · intro index inTable inEntries
      simp [decode, decodeHash, encodeHash, rotateRight_rotateLeft (rotation_lt index codeLength)]
  rw [encode, unrotated, chain_unchain]

/-- Storing hashes and reading them undo each other, in either order.  The bytes of the stored table
are those of the rotated hashes, chained from the low byte of the code length on. -/
theorem encode_invertible (hashes entries : Array UInt64) (codeLength : Nat) :
    decode (encode hashes codeLength) codeLength = hashes ∧
      encode (decode entries codeLength) codeLength = entries ∧
      (encode hashes codeLength).toList.flatMap Bytes.ofUInt64 =
        chainBytes (UInt8.ofNat codeLength)
          ((rotated hashes codeLength).toList.flatMap Bytes.ofUInt64) :=
  ⟨decode_encode hashes codeLength, encode_decode entries codeLength,
    flatMap_ofUInt64_chain (rotated hashes codeLength) codeLength⟩

theorem size_encode (hashes : Array UInt64) (codeLength : Nat) :
    (encode hashes codeLength).size = hashes.size := by
  rw [encode, ← Array.length_toList, toList_chain, length_mapCarry, Array.length_toList,
    Array.size_mapIdx]

theorem size_decode (entries : Array UInt64) (codeLength : Nat) :
    (decode entries codeLength).size = entries.size := by
  rw [decode, Array.size_mapIdx, ← Array.length_toList, toList_unchain, length_mapCarry,
    Array.length_toList]

end NativeTable
end ScriptBytecode
