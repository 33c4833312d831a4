import ScriptBytecode.Proofs.PackedResources

/-!
# Encrypted resource files

A file whose contents were encrypted is unpacked by inflating them as they are, and by decrypting
them only if that fails.  So it is unpacked to its segment unless the encrypted contents happen to
be deflated data, which they are for a key of a single bit.
-/

namespace ScriptBytecode
namespace Resource

/-- A cipher whose encryption, which works in place, can be undone. -/
def Cipher.Inverts (cipher : Cipher) : Prop :=
  ∀ ⦃data name size encrypted⦄, cipher.encrypt data name size = .ok encrypted →
    encrypted.size = data.size ∧ cipher.decrypt encrypted name size = .ok data

namespace Packing

variable {packing : Packing}

theorem pack_of_keyed
    {cipher : Cipher} {name : String}
    (keyed : packing.keyed? = some (cipher, name))
    (segment : Bytes) :
    packing.pack segment = (singlePageFlags segment.size).bind fun flags =>
      let deflated := packing.compression.deflate
        (segment ++ Array.replicate (flagsSize flags - segment.size) 0)
      (cipher.encrypt deflated name (deflated.size + headerLength)).map
        (packing.header flags ++ ·) := by
  rw [pack, keyed]
  rfl

theorem inflatePayload_of_decrypt
    {cipher : Cipher} {name : String}
    (keyed : packing.keyed? = some (cipher, name))
    {payload decrypted inflated : Bytes} {size : Nat}
    (notInflated : packing.compression.inflate? payload = none)
    (isDecrypted : cipher.decrypt payload name size = .ok decrypted)
    (isInflated : packing.compression.inflate? decrypted = some inflated) :
    packing.inflatePayload payload size = .ok inflated := by
  simp [inflatePayload, notInflated, keyed, isDecrypted, isInflated, bind, Except.bind, pure,
    Except.pure]

end Packing

/-! ## One key for every byte -/

namespace Cipher

/-- The cipher that applies one key to every byte. -/
def xor (key : UInt8) : Cipher where
  decrypt data _ _ := .ok (data.map (· ^^^ key))
  encrypt data _ _ := .ok (data.map (· ^^^ key))

theorem inverts_xor (key : UInt8) : (xor key).Inverts := by
  rintro data name size encrypted isEncrypted
  cases isEncrypted
  refine ⟨Array.size_map, congrArg Except.ok ?_⟩
  rw [Array.map_map]
  have undone : (fun byte : UInt8 => byte ^^^ key) ∘ (fun byte => byte ^^^ key) = id := by
    funext byte
    change byte ^^^ key ^^^ key = byte
    rw [UInt8.xor_assoc, UInt8.xor_self, UInt8.xor_zero]
  rw [undone, Array.map_id]

/-- Stored data with a key that makes the type of the first block the reserved one. -/
theorem inflate?_xor_reserved
    {data : Bytes}
    (large : Deflate.maxStored < data.size) :
    Deflate.inflate? ((Deflate.store data).map (· ^^^ 6)) = none := by
  obtain ⟨rest, isStored⟩ := Deflate.exists_toList_store large
  have first : ((Deflate.store data).map (· ^^^ 6))[0]? = some 6 := by
    rw [Array.getElem?_map, ← Array.getElem?_toList, isStored, Deflate.toList_storedBlock]
    rfl
  exact Deflate.inflate?_eq_none_of_reserved first rfl

/-- Stored data with a key that makes the first block the final one.  The length of the block and
its complement change alike, so it is still a stored block, of fewer bytes. -/
theorem inflate?_xor_final
    {data : Bytes}
    (large : Deflate.maxStored < data.size) :
    Deflate.inflate? ((Deflate.store data).map (· ^^^ 1)) =
      some ((data.extract 0 0xFEFE).map (· ^^^ 1)) := by
  have size : (data.extract 0 Deflate.maxStored).size = 0xFFFF := by
    unfold Deflate.maxStored at large
    rw [Array.size_extract, Deflate.maxStored]
    omega
  have shorter : ((data.extract 0 0xFEFE).map (· ^^^ 1)).size = 0xFEFE := by
    unfold Deflate.maxStored at large
    rw [Array.size_map, Array.size_extract]
    omega
  have split : (data.extract 0 Deflate.maxStored).toList =
      (data.extract 0 0xFEFE).toList ++ (data.extract 0xFEFE Deflate.maxStored).toList := by
    rw [← Array.toList_append, Array.extract_append_extract]
    rfl
  have length : (Bytes.ofUInt16 0xFFFF).map (· ^^^ 1) = Bytes.ofUInt16 0xFEFE := by decide
  have complement : (Bytes.ofUInt16 (~~~0xFFFF)).map (· ^^^ 1) = Bytes.ofUInt16 (~~~0xFEFE) := by
    decide
  obtain ⟨rest, isStored⟩ := Deflate.exists_toList_store large
  refine Deflate.inflate?_storedBlock ⟨[], ?_, ?_, rfl⟩ (by rw [shorter]; decide)
  · exact ((data.extract 0xFEFE Deflate.maxStored).toList ++ rest).map (· ^^^ 1)
  · rw [Array.toList_map, isStored, Deflate.toList_storedBlock, Deflate.toList_storedBlock, size,
      shorter, split]
    simp [length, complement]

end Cipher

namespace Packing

variable {segment : Bytes}

theorem maxStored_lt_size_padded
    (notEmpty : segment.size ≠ 0)
    {page : Nat}
    (least : LeastPage segment.size page) :
    Deflate.maxStored < (segment ++ Array.replicate (page - segment.size) 0).size := by
  rw [size_padded least]
  exact Nat.lt_of_lt_of_le (by decide) (least.le_page notEmpty)

/-- The packing that applies one key to every byte. -/
def keyedWith (key : UInt8) : Packing where
  fileName := some "test.ysc"
  cipher := some (.xor key)

theorem keyed?_keyedWith (key : UInt8) :
    (keyedWith key).keyed? = some (.xor key, "test.ysc") :=
  rfl

theorem pack_keyedWith
    (key : UInt8)
    {flags : UInt32}
    (isFlags : singlePageFlags segment.size = .ok flags) :
    (keyedWith key).pack segment = .ok ((keyedWith key).header flags ++
      (Deflate.store
        (segment ++ Array.replicate (flagsSize flags - segment.size) 0)).map (· ^^^ key)) := by
  rw [pack_of_keyed (keyed?_keyedWith key), isFlags]
  rfl

/-- With a key that makes the first block the final one, no file is unpacked to its segment. -/
theorem exists_unpack_keyedWith_one
    (notEmpty : segment.size ≠ 0)
    {file : Bytes}
    (packed : (keyedWith 1).pack segment = .ok file) :
    ∃ unpacked, (keyedWith 1).unpack file = .ok unpacked ∧ unpacked.size < 0x20000 := by
  obtain ⟨flags, isFlags, -⟩ := exists_of_bind_eq_ok (pack_of_keyed (keyed?_keyedWith 1) _ ▸ packed)
  obtain ⟨least, small⟩ := leastPage_of_singlePageFlags isFlags
  have large := maxStored_lt_size_padded notEmpty least
  rw [pack_keyedWith 1 isFlags] at packed
  cases packed
  have isInflated : (keyedWith 1).compression.inflate? _ = some _ :=
    Cipher.inflate?_xor_final large
  rw [unpack_header_append rfl small, inflatePayload, isInflated]
  refine ⟨_, rfl, ?_⟩
  simp only [Array.size_extract, Array.size_map]
  omega

/-! ## Unpacking with a cipher -/

/-- A file of a cipher that can be undone is unpacked to its segment if the contents cannot be
inflated as they are.  If they can, it is unpacked to what they are inflated to. -/
theorem unpack_pack_of_keyed
    {packing : Packing} {cipher : Cipher} {name : String}
    (keyed : packing.keyed? = some (cipher, name))
    (inverts : cipher.Inverts)
    (restores : packing.compression.Restores)
    {segment file : Bytes}
    (packed : packing.pack segment = .ok file) :
    ∃ page, LeastPage segment.size page ∧
      (packing.compression.inflate? (file.extract headerLength file.size) = none →
        packing.unpack file = .ok (segment ++ Array.replicate (page - segment.size) 0)) ∧
      ∀ inflated,
        packing.compression.inflate? (file.extract headerLength file.size) = some inflated →
          packing.unpack file = .ok (inflated.extract 0 page) := by
  rw [pack_of_keyed keyed] at packed
  obtain ⟨flags, isFlags, packed⟩ := exists_of_bind_eq_ok packed
  obtain ⟨payload, encrypted, rfl⟩ := map_eq_ok_iff.mp packed
  obtain ⟨least, small⟩ := leastPage_of_singlePageFlags isFlags
  obtain ⟨sameSize, decrypted⟩ := inverts encrypted
  refine ⟨flagsSize flags, least, ?_, ?_⟩
  · intro notInflated
    rw [extract_header_append] at notInflated
    rw [← sameSize] at decrypted
    rw [unpack_header_append rfl small,
      inflatePayload_of_decrypt keyed notInflated decrypted (restores _)]
    exact congrArg Except.ok (Array.extract_eq_self_of_le (Nat.le_of_eq (size_padded least)))
  · intro inflated isInflated
    rw [extract_header_append] at isInflated
    rw [unpack_header_append rfl small, inflatePayload, isInflated]
    rfl

/-- With a key that makes the first block the reserved one, a file is unpacked to its segment. -/
theorem unpack_pack_keyedWith_six :
    (Cipher.xor 6).Inverts ∧ ∃ file page,
      (keyedWith 6).pack #[1, 2, 3] = .ok file ∧ LeastPage 3 page ∧
        (keyedWith 6).unpack file = .ok (#[1, 2, 3] ++ Array.replicate (page - 3) 0) := by
  have isFlags : singlePageFlags (#[1, 2, 3] : Bytes).size = .ok 16 := by decide
  have large := maxStored_lt_size_padded (by decide) (leastPage_of_singlePageFlags isFlags).1
  obtain ⟨page, least, unpacked, -⟩ :=
    unpack_pack_of_keyed (keyed?_keyedWith 6) (Cipher.inverts_xor 6) Compression.restores_default
      (pack_keyedWith 6 isFlags)
  rw [extract_header_append] at unpacked
  exact ⟨Cipher.inverts_xor 6, _, page, pack_keyedWith 6 isFlags, least,
    unpacked (Cipher.inflate?_xor_reserved large)⟩

/-- With a key that makes the first block the final one, a file is unpacked to something else. -/
theorem unpack_pack_keyedWith_one :
    (Cipher.xor 1).Inverts ∧ ∃ file,
      (keyedWith 1).pack #[1, 2, 3] = .ok file ∧ ∀ page, LeastPage 3 page →
        (keyedWith 1).unpack file ≠ .ok (#[1, 2, 3] ++ Array.replicate (page - 3) 0) := by
  have isFlags : singlePageFlags (#[1, 2, 3] : Bytes).size = .ok 16 := by decide
  have packed := pack_keyedWith 1 isFlags
  obtain ⟨unpacked, isUnpacked, size⟩ := exists_unpack_keyedWith_one (by decide) packed
  refine ⟨Cipher.inverts_xor 1, _, packed, ?_⟩
  intro page least isSegment
  rw [isUnpacked] at isSegment
  cases isSegment
  have isPage : (#[1, 2, 3] ++ Array.replicate (page - 3) 0 : Bytes).size = page :=
    size_padded least
  rw [isPage] at size
  exact absurd (least.le_page (by decide)) (Nat.not_le.mpr size)

end Packing
end Resource
end ScriptBytecode
