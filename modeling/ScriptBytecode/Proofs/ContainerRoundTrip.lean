import ScriptBytecode.Proofs.Answers
import ScriptBytecode.Proofs.CanonicalPages
import ScriptBytecode.Proofs.ContainerHeader
import ScriptBytecode.Proofs.Utf8Text

/-!
# Reading back a container

A container is read as the script it was written for.  Every block is found by its pointer, has the
size that the header gives for it, and is read to what it was written for.
-/

namespace ScriptBytecode
namespace Segment

/-- A segment has some blocks, at positions to which there are pointers. -/
def Stored (segment : Bytes) (blocks : List Block) : Prop :=
  ∀ block ∈ blocks,
    segmentBase + block.position < 2 ^ 64 ∧
      Holds segment block.position block.content.toList

section Reading

variable {segment : Bytes} (region : Region)

theorem resolve_eq
    {position size : Nat}
    (addressable : segmentBase + position < 2 ^ 64)
    (inside : position + size ≤ segment.size) :
    resolve segment region (pointerTo (some position)) size = .ok position := by
  have pointer : (pointerTo (some position)).toNat = segmentBase + position := by
    rw [pointerTo, UInt64.toNat_ofNat', Nat.mod_eq_of_lt addressable]
  simp only [resolve, pointer, Nat.add_sub_cancel_left, Nat.le_add_right, inside, and_self,
    if_true]

/-- An array of words is read back. -/
theorem wordArray_eq
    {position : Option Nat} {values : Array UInt64}
    (placed : 0 < values.size → position.isSome)
    (stored : Stored segment (Block.ofWords position values)) :
    wordArray segment region (pointerTo position) values.size = .ok values := by
  unfold wordArray
  split
  · rename_i isEmpty
    rw [Array.eq_empty_of_size_eq_zero isEmpty]
  · rename_i notEmpty
    obtain ⟨start, rfl⟩ := Option.isSome_iff_exists.mp (placed (Nat.pos_of_ne_zero notEmpty))
    obtain ⟨addressable, holds⟩ := stored _ List.mem_cons_self
    have inside := holds.inside
    rw [Array.length_toList, Bytes.size_ofWords] at inside
    rw [resolve_eq region addressable inside]
    exact congrArg Except.ok holds.words_eq

end Reading

section Pages

variable {α : Type} {segment : Bytes} (region : Region) {elementSize : Nat}
    {elements : (offset count : Nat) → Array α} {encode : Array α → Bytes} {positions : List Nat}
    {contents : List Bytes}

/-- The pages of a table are read back. -/
theorem readPages_eq
    (sizes : ∀ page, (encode page).size = page.size * elementSize)
    (reads : ∀ position page, Holds segment position (encode page).toList →
      elements position page.size = page)
    {paged : Paged α}
    (canonical : paged.Canonical)
    (count : positions.length = paged.pages.size)
    (stored : Stored segment
      (List.zipWith Block.mk positions (paged.pages.toList.map encode))) :
    readPages segment region elementSize elements paged.length positions.toArray = .ok paged := by
  unfold readPages
  rw [mapIdxM_eq_ok_iff.mpr]
  · rfl
  refine ⟨count.symm, fun index position page atPosition isPage => ?_⟩
  rw [List.getElem?_toArray] at atPosition
  have isBlock : (List.zipWith Block.mk positions (paged.pages.toList.map encode))[index]? =
      some ⟨position, encode page⟩ := by
    rw [← Array.getElem?_toList] at isPage
    rw [List.getElem?_zipWith, atPosition, List.getElem?_map, isPage]
    rfl
  obtain ⟨-, holds⟩ := stored _ (List.mem_of_getElem? isBlock)
  have inside := holds.inside
  rw [Array.length_toList, sizes] at inside
  have isSize := canonical.size_page isPage
  simp only [List.size_toArray, count, ← isSize, inside, if_true, reads position page holds]

theorem exists_block
    {position : Nat}
    (member : position ∈ positions)
    (sameLength : positions.length = contents.length) :
    ∃ content, ⟨position, content⟩ ∈ List.zipWith Block.mk positions contents := by
  obtain ⟨index, inPositions, rfl⟩ := List.mem_iff_getElem.mp member
  refine ⟨contents[index], List.mem_iff_getElem.mpr ⟨index, ?_, List.getElem_zipWith⟩⟩
  rw [List.length_zipWith]
  omega

/-- The pointers of stored blocks lead to the positions of the blocks. -/
theorem mapM_resolve_eq
    (sameLength : positions.length = contents.length)
    (stored : Stored segment (List.zipWith Block.mk positions contents)) :
    (positions.map fun page => pointerTo (some page)).toArray.mapM
      (fun pointer => resolve segment region pointer 0) = .ok positions.toArray := by
  have resolved : ∀ position ∈ positions,
      resolve segment region (pointerTo (some position)) 0 = .ok position := by
    intro position member
    obtain ⟨content, isBlock⟩ := exists_block member sameLength
    obtain ⟨addressable, holds⟩ := stored _ isBlock
    exact resolve_eq region addressable (Nat.le_trans (Nat.le_add_right _ _) holds.inside)
  calc (positions.map fun page => pointerTo (some page)).toArray.mapM
        (fun pointer => resolve segment region pointer 0)
      = List.toArray <$> positions.mapM (fun position =>
          resolve segment region (pointerTo (some position)) 0) := by
        rw [List.mapM_toArray, List.mapM_map]
        rfl
    _ = .ok positions.toArray := by
        rw [mapM_eq_ok resolved, List.map_id']
        rfl

/-- A table of pages is read back. -/
theorem pageTable_eq
    (sizes : ∀ page, (encode page).size = page.size * elementSize)
    (reads : ∀ position page, Holds segment position (encode page).toList →
      elements position page.size = page)
    {paged : Paged α}
    (canonical : paged.Canonical)
    {table : Option Nat}
    (placed : 0 < paged.pages.size → table.isSome)
    (count : positions.length = paged.pages.size)
    (stored : Stored segment
      (Block.ofTable table positions (paged.pages.toList.map encode))) :
    pageTable segment region elementSize elements (pointerTo table) paged.length = .ok paged := by
  have needed := canonical.size_pages
  unfold pageTable
  split
  · rename_i isEmpty
    rw [isEmpty] at needed
    have noPages : paged.pages = #[] := Array.eq_empty_of_size_eq_zero (needed.trans rfl)
    obtain ⟨pages⟩ := paged
    subst noPages
    rfl
  · rename_i notEmpty
    have somePages : 0 < paged.pages.size := by
      rw [needed]
      unfold pageCount pageLength
      omega
    obtain ⟨start, rfl⟩ := Option.isSome_iff_exists.mp (placed somePages)
    obtain ⟨⟨addressable, holdsTable⟩, storedPages⟩ := List.forall_mem_cons.mp stored
    have pointers := wordArray_eq region (fun _ => rfl)
      (show Stored segment (Block.ofWords (some start)
        (positions.map fun page => pointerTo (some page)).toArray) from
        List.forall_mem_singleton.mpr ⟨addressable, holdsTable⟩)
    rw [List.size_toArray, List.length_map, count, needed] at pointers
    have sameLength : positions.length = (paged.pages.toList.map encode).length := by
      rw [count, List.length_map, Array.length_toList]
    rw [pointers]
    simp only [bind, Except.bind]
    rw [mapM_resolve_eq region sameLength storedPages]
    exact readPages_eq region sizes reads canonical count storedPages

end Pages

/-- A text without zeros is read back. -/
theorem terminatedText_eq
    {segment : Bytes}
    (region : Region)
    {position : Nat} {text : String}
    (noZero : '\x00' ∉ text.toList)
    (stored : Stored segment [⟨position, (Utf8.encode text).push 0⟩]) :
    terminatedText segment region (pointerTo (some position)) = .ok text := by
  obtain ⟨addressable, holds⟩ := stored _ List.mem_cons_self
  have notNull : pointerTo (some position) ≠ 0 := by
    intro isNull
    have zero := congrArg UInt64.toNat isNull
    rw [pointerTo, UInt64.toNat_ofNat', Nat.mod_eq_of_lt addressable] at zero
    unfold segmentBase at zero
    simp at zero
  obtain ⟨after, isRest⟩ := holds.exists_rest
  rw [Array.toList_push, Utf8.toList_encode, List.append_assoc, List.singleton_append] at isRest
  have noZeroByte := Utf8.ne_zero_of_mem_encodeChars noZero
  have hasZero : (segment.extract position segment.size).contains 0 = true := by
    rw [Array.contains_iff_mem, ← Array.mem_toList_iff, isRest]
    exact List.mem_append_right _ List.mem_cons_self
  have upToZero : Script.untilZero (segment.extract position segment.size) =
      (Utf8.encodeChars text.toList).toArray := by
    rw [Script.untilZero, ← @Array.toArray_toList _ (segment.extract _ _), isRest,
      List.takeWhile_toArray, Utf8.takeWhile_append_zero noZeroByte]
  unfold terminatedText
  rw [if_neg notNull, resolve_eq region addressable
    (Nat.le_trans (Nat.le_add_right _ _) holds.inside)]
  simp only [bind, Except.bind, hasZero, if_true, upToZero, Utf8.decode_encodeChars,
    String.ofList_toList]
  rfl

end Segment

namespace Script

variable {positions : List Nat}

/-- A script that a container can be written for: its pages are canonical, its name can be
terminated, and its numbers fit in their fields of the header.  Pointers have 64 bits, which is
enough for a name of fewer than `2 ^ 63` bytes. -/
structure Storable (script : Script) : Prop where
  codeCanonical : script.codePages.Canonical
  globalsCanonical : script.globalsPages.Canonical
  stringsCanonical : script.stringPages.Canonical
  noNul : '\x00' ∉ script.name.toList
  blockFits : script.globalsBlock.toNat < 2 ^ 14
  codeFits : script.codeLength < 2 ^ 32
  staticsFit : script.statics.size < 2 ^ 32
  nativesFit : script.natives.size < 2 ^ 32
  stringsFit : script.stringsLength < 2 ^ 32
  hashesFit : script.globalBlockHashes.size < 2 ^ 32
  globalsFit : script.globalsLength < 2 ^ 32
  nameFits : script.name.utf8ByteSize < 2 ^ 63

/-! ## The size of a container -/

theorem room_append (first second : List Block) :
    room (first ++ second) = room first + room second := by
  simp [room]

theorem room_ofWords_le (position : Option Nat) (words : Array UInt64) :
    room (Block.ofWords position words) ≤ 16 + 8 * words.size := by
  cases position with
  | none => exact Nat.zero_le _
  | some position => simp [Block.ofWords, room, Layout.alignment]

theorem room_pages_le (positions : List Nat) (pages : List Bytes) :
    room (List.zipWith Block.mk positions pages) ≤
      16 * pages.length + (pages.map Array.size).sum := by
  induction positions generalizing pages with
  | nil => exact Nat.zero_le _
  | cons position positions ih =>
      cases pages with
      | nil => exact Nat.le_refl 0
      | cons page pages =>
          have later := ih pages
          simp only [room, List.zipWith_cons_cons, List.map_cons, List.sum_cons,
            List.length_cons, Layout.alignment] at later ⊢
          omega

theorem room_ofTable_le
    (table : Option Nat)
    {pages : List Bytes}
    (count : positions.length = pages.length) :
    room (Block.ofTable table positions pages) ≤
      16 + 24 * pages.length + (pages.map Array.size).sum := by
  cases table with
  | none => exact Nat.zero_le _
  | some position =>
      have later := room_pages_le positions pages
      simp only [Block.ofTable, room, List.map_cons, List.sum_cons, Bytes.size_ofWords,
        List.size_toArray, List.length_map, count, Layout.alignment] at later ⊢
      omega

theorem pageCount_le (length : Nat) : pageCount length ≤ length := by
  unfold pageCount pageLength
  omega

/-- The room that a table of pages takes, by the number of its elements. -/
theorem room_pageTable_le
    {α : Type} {paged : Paged α}
    (canonical : paged.Canonical)
    {encode : Array α → Bytes} {elementSize : Nat}
    (sizes : ∀ page, (encode page).size = page.size * elementSize)
    (table : Option Nat)
    (count : positions.length = paged.pages.size) :
    room (Block.ofTable table positions (paged.pages.toList.map encode)) ≤
      16 + 24 * paged.length + paged.length * elementSize := by
  have sameLength : positions.length = (paged.pages.toList.map encode).length := by
    rw [count, List.length_map, Array.length_toList]
  have bound := room_ofTable_le table sameLength
  have needed := canonical.size_pages
  have few := pageCount_le paged.length
  have total : ((paged.pages.toList.map encode).map Array.size).sum =
      paged.length * elementSize := by
    rw [Paged.length_eq_sum]
    induction paged.pages.toList with
    | nil => simp
    | cons page rest ih =>
        simp only [List.map_cons, List.sum_cons, sizes, ih, Nat.add_mul]
  rw [total, List.length_map, Array.length_toList] at bound
  omega

/-- Every byte of a container has an address. -/
theorem Storable.length_lt
    {script : Script}
    (storable : script.Storable)
    (countFits : script.globalsCount ≤ Header.maxGlobals) :
    segmentBase + script.layout.length < 2 ^ 64 := by
  have bound := script.spans_blocks.stop_le
  have fits := script.layout_fits
  simp only [Script.blocks, room_append] at bound
  have code := room_pageTable_le storable.codeCanonical (fun page => (Nat.mul_one page.size).symm)
    script.layout.codeTable fits.codePages
  have statics := room_ofWords_le script.layout.statics script.statics
  have globals := room_pageTable_le storable.globalsCanonical
    (fun page => (Bytes.size_ofWords page).trans (Nat.mul_comm _ _))
    script.layout.globalsTable fits.globalsPages
  have natives := room_ofWords_le script.layout.natives
    (NativeTable.encode script.natives script.codeLength)
  have strings := room_pageTable_le storable.stringsCanonical
    (fun page => (Nat.mul_one page.size).symm) script.layout.stringTable fits.stringPages
  have hashes := room_ofWords_le script.layout.globalBlockHashes script.globalBlockHashes
  have name : room [⟨script.layout.name, (Utf8.encode script.name).push 0⟩] =
      16 + (script.name.utf8ByteSize + 1) := by
    simp only [room, List.map_singleton, List.sum_singleton, Array.size_push, Layout.alignment]
    rfl
  rw [NativeTable.size_encode] at natives
  rw [List.map_id'] at code strings
  rw [name] at bound
  rw [globalsCount_eq_globalsLength storable.globalsFit] at countFits
  obtain ⟨-, -, -, -, -, codeFits, staticsFit, nativesFit, stringsFit, hashesFit, -,
    nameFits⟩ := storable
  unfold Script.codeLength at codeFits
  unfold Script.stringsLength at stringsFit
  unfold Script.globalsLength Header.maxGlobals Header.globalsLengthBits at countFits
  unfold segmentBase Header.length at *
  omega

/-! ## The whole script -/

section Whole

variable {script : Script} {segment : Bytes}

theorem Storable.globalsBlock_header
    (storable : script.Storable)
    (countFits : script.globalsCount ≤ Header.maxGlobals)
    (layout : Layout) :
    (script.header layout).globalsBlock = script.globalsBlock := by
  apply UInt32.toNat_inj.mp
  rw [toNat_globalsBlock_header countFits, Nat.mod_eq_of_lt storable.blockFits]

/-- A script is read from a segment with the blocks of its container. -/
theorem Storable.read_eq
    (storable : script.Storable)
    (countFits : script.globalsCount ≤ Header.maxGlobals)
    (holdsHeader : Segment.Holds segment 0 (script.header script.layout).toBytes)
    (stored : Segment.Stored segment (script.blocks script.layout)) :
    read segment = .ok script := by
  have isHeader := Header.ofBytes?_eq holdsHeader
  have fits := script.layout_fits
  obtain ⟨⟨⟨⟨⟨⟨code, statics⟩, globals⟩, natives⟩, name⟩, strings⟩, hashes⟩ := by
    simpa only [Script.blocks, Segment.Stored, List.forall_mem_append] using stored
  rw [← List.map_id' script.codePages.pages.toList] at code
  rw [← List.map_id' script.stringPages.pages.toList] at strings
  have codeLength : (UInt32.ofNat script.codeLength).toNat = script.codeLength :=
    UInt32.toNat_ofNat_of_lt' storable.codeFits
  have staticsCount : (UInt32.ofNat script.statics.size).toNat = script.statics.size :=
    UInt32.toNat_ofNat_of_lt' storable.staticsFit
  have nativesCount : (UInt32.ofNat script.natives.size).toNat =
      (NativeTable.encode script.natives script.codeLength).size :=
    (UInt32.toNat_ofNat_of_lt' storable.nativesFit).trans (NativeTable.size_encode _ _).symm
  have stringsLength : (UInt32.ofNat script.stringsLength).toNat = script.stringsLength :=
    UInt32.toNat_ofNat_of_lt' storable.stringsFit
  have hashesCount : (UInt32.ofNat script.globalBlockHashes.size).toNat =
      script.globalBlockHashes.size :=
    UInt32.toNat_ofNat_of_lt' storable.hashesFit
  have readCode : Segment.pageTable segment .codePages 1 (Segment.bytes segment)
      (pointerTo script.layout.codeTable) script.codeLength = .ok script.codePages :=
    Segment.pageTable_eq _ (fun page => (Nat.mul_one page.size).symm)
      (fun _ _ => Segment.Holds.bytes_eq) storable.codeCanonical fits.codeTable fits.codePages code
  have readStatics := Segment.wordArray_eq .statics fits.statics statics
  have readGlobals : Segment.pageTable segment .globalsPages 8 (Segment.words segment)
      (pointerTo script.layout.globalsTable) script.globalsLength = .ok script.globalsPages :=
    Segment.pageTable_eq _ (fun page => (Bytes.size_ofWords page).trans (Nat.mul_comm _ _))
      (fun _ _ => Segment.Holds.words_eq) storable.globalsCanonical fits.globalsTable
      fits.globalsPages globals
  have readNatives := Segment.wordArray_eq .natives (by
    rw [NativeTable.size_encode]
    exact fits.natives) natives
  have readName := Segment.terminatedText_eq .name storable.noNul name
  have readStrings : Segment.pageTable segment .stringPages 1 (Segment.bytes segment)
      (pointerTo script.layout.stringTable) script.stringsLength = .ok script.stringPages :=
    Segment.pageTable_eq _ (fun page => (Nat.mul_one page.size).symm)
      (fun _ _ => Segment.Holds.bytes_eq) storable.stringsCanonical fits.stringTable
      fits.stringPages strings
  have readHashes := Segment.wordArray_eq .globalBlockHashes fits.globalBlockHashes hashes
  unfold read
  rw [isHeader]
  simp only [globalsLength_header countFits, globalsCount_eq_globalsLength storable.globalsFit,
    storable.globalsBlock_header countFits]
  unfold Script.header
  simp only [codeLength, staticsCount, nativesCount, stringsLength, hashesCount, readCode,
    readStatics, readGlobals, readNatives, readName, readStrings, readHashes, bind, Except.bind,
    NativeTable.decode_encode]
  rfl

/-- What a written container holds, also when other bytes follow it. -/
theorem Storable.stored_of_write
    (storable : script.Storable)
    {written : Bytes}
    (wrote : script.write = .ok written)
    (trailing : Bytes) :
    script.globalsCount ≤ Header.maxGlobals ∧
      Segment.Holds (written ++ trailing) 0 (script.header script.layout).toBytes ∧
      Segment.Stored (written ++ trailing) (script.blocks script.layout) := by
  have countFits := (write_eq_ok_iff.mp wrote).1
  have addresses := storable.length_lt countFits
  obtain ⟨holdsHeader, holdsBlocks⟩ := holds_of_write wrote
  refine ⟨countFits, holdsHeader.followed trailing, fun block member => ?_⟩
  have early := script.spans_blocks.stop_of_mem member
  exact ⟨by omega, (holdsBlocks block member).followed trailing⟩

/-- A written container, followed by any bytes, is read as the script that was written. -/
theorem read_append_of_write
    (storable : script.Storable)
    {written : Bytes}
    (wrote : script.write = .ok written)
    (trailing : Bytes) :
    read (written ++ trailing) = .ok script := by
  obtain ⟨countFits, holdsHeader, stored⟩ := storable.stored_of_write wrote trailing
  exact storable.read_eq countFits holdsHeader stored

end Whole

/-- A script with two pages of code and with something in every block. -/
def pagedScript : Script :=
  { globalsSignature := 0xDEADBEEF
    argsCount := 2
    globalsBlock := 3
    codePages := .ofArray (Array.replicate 0x4002 0x13)
    statics := #[5, 0x40200000]
    globalsPages := .ofArray #[7, 7, 7]
    natives := #[0x1122334455667788, 0xDEADBEEF0BADF00D, 0]
    name := "test_script"
    stringPages := .ofArray #[0x68, 0x69, 0]
    globalBlockHashes := #[0xABCD] }

theorem read_append_of_write_pagedScript :
    ∃ written, pagedScript.write = .ok written ∧ pagedScript.codePages.pages.size = 2 ∧
      read (written ++ #[1, 2]) = .ok pagedScript := by
  have codeLength : pagedScript.codeLength = 0x4002 := by
    rw [codeLength, Paged.length_eq_size_flatten, pagedScript, Paged.flatten_ofArray,
      Array.size_replicate]
  have storable : pagedScript.Storable :=
    { codeCanonical := Paged.canonical_ofArray _
      globalsCanonical := Paged.canonical_ofArray _
      stringsCanonical := Paged.canonical_ofArray _
      noNul := by decide +kernel
      blockFits := by decide
      codeFits := by omega
      staticsFit := by decide
      nativesFit := by decide
      stringsFit := by decide +kernel
      hashesFit := by decide
      globalsFit := by decide +kernel
      nameFits := by decide +kernel }
  have wrote : pagedScript.write =
      .ok ((pagedScript.blocks pagedScript.layout).foldl Block.append
        (pagedScript.header pagedScript.layout).toBytes.toArray) :=
    if_neg (by decide +kernel)
  refine ⟨_, wrote, ?_, read_append_of_write storable wrote #[1, 2]⟩
  rw [pagedScript, Paged.size_pages_ofArray, Array.size_replicate]
  rfl

end Script
end ScriptBytecode
