import ScriptBytecode.Proofs.ContainerRoundTrip
import ScriptBytecode.Proofs.LossyText

/-!
# Rewriting a container

A script that was read from any bytes can be written, and the written container is read as the same
script.  The bytes may have overlapping or shared blocks and a name that is no text: what the reader
makes of them always has canonical pages, a name that can be terminated and numbers that fit.
-/

namespace ScriptBytecode
namespace Segment

variable {segment : Bytes} {region : Region} {pointer : UInt64}

theorem size_of_wordArray
    {count : Nat} {values : Array UInt64}
    (isRead : wordArray segment region pointer count = .ok values) :
    values.size = count := by
  unfold wordArray at isRead
  split at isRead
  · rename_i isEmpty
    cases isRead
    exact isEmpty.symm
  · cases found : resolve segment region pointer (8 * count) with
    | error error =>
        rw [found] at isRead
        cases isRead
    | ok offset =>
        rw [found] at isRead
        cases isRead
        simp [words]

theorem noNul_of_terminatedText
    {text : String}
    (isRead : terminatedText segment region pointer = .ok text) :
    '\x00' ∉ text.toList := by
  unfold terminatedText at isRead
  split at isRead
  · cases isRead
    simp
  · obtain ⟨offset, -, later⟩ := exists_of_bind_eq_ok isRead
    simp only at later
    split at later
    · cases later
      apply Utf8.nul_not_mem_decode
      intro byte member
      rw [Script.untilZero, ← @Array.toArray_toList _ (segment.extract _ _),
        List.takeWhile_toArray, List.mem_toArray] at member
      simpa using List.all_eq_true.mp List.all_takeWhile byte member
    · cases later

theorem size_words (segment : Bytes) (offset count : Nat) :
    (words segment offset count).size = count := by
  simp [words]

theorem size_bytes
    {offset count : Nat}
    (inside : offset + count * 1 ≤ segment.size) :
    (bytes segment offset count).size = count := by
  rw [bytes, Array.size_extract]
  omega

/-- A table of pages that is read is canonical and has the given length. -/
theorem canonical_of_pageTable
    {α : Type} {elementSize : Nat} {elements : (offset count : Nat) → Array α}
    (sizes : ∀ offset count, offset + count * elementSize ≤ segment.size →
      (elements offset count).size = count)
    {length : Nat} {paged : Paged α}
    (isRead : pageTable segment region elementSize elements pointer length = .ok paged) :
    paged.Canonical ∧ paged.length = length := by
  unfold pageTable at isRead
  split at isRead
  · rename_i isEmpty
    cases isRead
    exact ⟨nofun, isEmpty.symm⟩
  · obtain ⟨pointers, arePointers, later⟩ := exists_of_bind_eq_ok isRead
    obtain ⟨offsets, areOffsets, last⟩ := exists_of_bind_eq_ok later
    obtain ⟨pages, arePages, isPaged⟩ := exists_of_bind_eq_ok last
    cases isPaged
    obtain ⟨samePages, reads⟩ := mapIdxM_eq_ok_iff.mp arePages
    have count : offsets.size = pageCount length :=
      (size_of_mapM_eq_ok areOffsets).trans (size_of_wordArray arePointers)
    apply Paged.canonical_of_sizes (samePages.trans count)
    intro index page found
    obtain ⟨inPages, -⟩ := Array.getElem?_eq_some_iff.mp found
    have inOffsets : index < offsets.size := by
      rwa [← samePages]
    have isPage := reads index offsets[index] page (Array.getElem?_eq_getElem inOffsets) found
    simp only at isPage
    split at isPage
    · rename_i inside
      cases isPage
      rw [samePages]
      exact sizes _ _ inside
    · cases isPage

end Segment

namespace Script

variable {segment : Bytes} {script : Script} {header : Header}

/-- What the reader makes of a header and the blocks it points to. -/
structure ReadsAs (header : Header) (script : Script) : Prop where
  codeCanonical : script.codePages.Canonical
  globalsCanonical : script.globalsPages.Canonical
  stringsCanonical : script.stringPages.Canonical
  codeLength : script.codeLength = header.codeLength.toNat
  globalsLength : script.globalsLength = header.globalsLength
  stringsLength : script.stringsLength = header.stringsLength.toNat
  globalsBlock : script.globalsBlock = header.globalsBlock
  staticsCount : script.statics.size = header.staticsCount.toNat
  nativesCount : script.natives.size = header.nativesCount.toNat
  hashesCount : script.globalBlockHashes.size = header.globalBlockCount.toNat
  noNul : '\x00' ∉ script.name.toList

theorem exists_readsAs (isRead : read segment = .ok script) :
    ∃ header, Header.ofBytes? segment = some header ∧ ReadsAs header script := by
  unfold read at isRead
  split at isRead
  · cases isRead
  · rename_i header isHeader
    refine ⟨header, isHeader, ?_⟩
    obtain ⟨codePages, areCodePages, isRead⟩ := exists_of_bind_eq_ok isRead
    obtain ⟨statics, areStatics, isRead⟩ := exists_of_bind_eq_ok isRead
    obtain ⟨globalsPages, areGlobalsPages, isRead⟩ := exists_of_bind_eq_ok isRead
    obtain ⟨entries, areEntries, isRead⟩ := exists_of_bind_eq_ok isRead
    obtain ⟨name, isName, isRead⟩ := exists_of_bind_eq_ok isRead
    obtain ⟨stringPages, areStringPages, isRead⟩ := exists_of_bind_eq_ok isRead
    obtain ⟨hashes, areHashes, isRead⟩ := exists_of_bind_eq_ok isRead
    cases isRead
    have code := Segment.canonical_of_pageTable (fun _ _ => Segment.size_bytes) areCodePages
    have globals := Segment.canonical_of_pageTable
      (fun offset count _ => Segment.size_words segment offset count) areGlobalsPages
    have strings := Segment.canonical_of_pageTable (fun _ _ => Segment.size_bytes) areStringPages
    exact
      { codeCanonical := code.1
        globalsCanonical := globals.1
        stringsCanonical := strings.1
        codeLength := code.2
        globalsLength := globals.2
        stringsLength := strings.2
        globalsBlock := rfl
        staticsCount := Segment.size_of_wordArray areStatics
        nativesCount := (NativeTable.size_decode _ _).trans (Segment.size_of_wordArray areEntries)
        hashesCount := Segment.size_of_wordArray areHashes
        noNul := Segment.noNul_of_terminatedText isName }

theorem ReadsAs.globalsLength_lt
    (readsAs : ReadsAs header script) :
    script.globalsLength < 2 ^ 18 := by
  rw [readsAs.globalsLength, Header.globalsLength_eq]
  exact Nat.mod_lt _ (by decide)

theorem ReadsAs.storable
    (readsAs : ReadsAs header script)
    (nameFits : script.name.utf8ByteSize < 2 ^ 63) :
    script.Storable where
  codeCanonical := readsAs.codeCanonical
  globalsCanonical := readsAs.globalsCanonical
  stringsCanonical := readsAs.stringsCanonical
  noNul := readsAs.noNul
  blockFits := by
    have word : header.globalsWord.toNat < 2 ^ 32 := header.globalsWord.toNat_lt
    rw [readsAs.globalsBlock, Header.toNat_globalsBlock]
    omega
  codeFits := readsAs.codeLength ▸ header.codeLength.toNat_lt
  staticsFit := readsAs.staticsCount ▸ header.staticsCount.toNat_lt
  nativesFit := readsAs.nativesCount ▸ header.nativesCount.toNat_lt
  stringsFit := readsAs.stringsLength ▸ header.stringsLength.toNat_lt
  hashesFit := readsAs.hashesCount ▸ header.globalBlockCount.toNat_lt
  globalsFit := Nat.lt_trans readsAs.globalsLength_lt (by decide)
  nameFits := nameFits

theorem ReadsAs.exists_write
    (readsAs : ReadsAs header script) :
    ∃ written, script.write = .ok written := by
  have few := readsAs.globalsLength_lt
  have fits : ¬Header.maxGlobals < script.globalsCount := by
    unfold Header.maxGlobals Header.globalsLengthBits globalsCount
    omega
  exact ⟨_, if_neg fits⟩

/-- A script that was read from any bytes has canonical pages of the lengths in the header.  It can
be written, and reading what was written gives the same script.  A text has fewer than `2 ^ 63`
bytes. -/
theorem read_write_of_read
    (isRead : read segment = .ok script)
    (nameFits : script.name.utf8ByteSize < 2 ^ 63) :
    ∃ header written,
      Header.ofBytes? segment = some header ∧
        script.codePages.Canonical ∧ script.codeLength = header.codeLength.toNat ∧
        script.globalsPages.Canonical ∧ script.globalsLength = header.globalsLength ∧
        script.stringPages.Canonical ∧ script.stringsLength = header.stringsLength.toNat ∧
        script.write = .ok written ∧ read written = .ok script := by
  obtain ⟨header, isHeader, readsAs⟩ := exists_readsAs isRead
  have storable := readsAs.storable nameFits
  obtain ⟨written, wrote⟩ := readsAs.exists_write
  obtain ⟨countFits, holdsHeader, stored⟩ := storable.stored_of_write wrote #[]
  have reread := storable.read_eq countFits holdsHeader stored
  rw [Array.append_empty] at reread
  exact ⟨header, written, isHeader, readsAs.codeCanonical, readsAs.codeLength,
    readsAs.globalsCanonical, readsAs.globalsLength, readsAs.stringsCanonical,
    readsAs.stringsLength, wrote, reread⟩

/-- A segment whose code and static both lie in the header, with a name that is no text. -/
def overlappingSegment : Bytes :=
  let header : Header :=
    { vtable := 1, fileUnknown := 1, pagesInfo := 0, codePages := 0x500000B0
      globalsSignature := 0, codeLength := 5, argsCount := 0, staticsCount := 1
      globalsWord := 0xC0000, nativesCount := 0, statics := 0x50000000, globalsPages := 0
      natives := 0, unknown48 := 0, unknown50 := 0, nameHash := 0, refCount := 1
      name := 0x500000B8, stringPages := 0, stringsLength := 0, unknown74 := 0, unknown78 := 0
      unknown80 := 0, unknown88 := 0, unknown90 := 0, unknown98 := 0, globalBlockCount := 0
      globalBlockHashes := 0 }
  (header.toBytes ++ [0, 0, 0, 0] ++ Bytes.ofUInt64 0x50000000 ++ [0xFF, 0x41, 0]).toArray

theorem read_write_of_read_overlappingSegment :
    ∃ script header written,
      read overlappingSegment = .ok script ∧ script.codeLength = 5 ∧ script.statics.size = 1 ∧
        script.name.toList = [Utf8.replacement, 'A'] ∧
        Header.ofBytes? overlappingSegment = some header ∧
        script.codePages.Canonical ∧ script.codeLength = header.codeLength.toNat ∧
        script.globalsPages.Canonical ∧ script.globalsLength = header.globalsLength ∧
        script.stringPages.Canonical ∧ script.stringsLength = header.stringsLength.toNat ∧
        script.write = .ok written ∧ read written = .ok script := by
  have known : (read overlappingSegment).toOption.map (fun script =>
      (script.codeLength, script.statics.size, script.name.toList, script.name.utf8ByteSize)) =
      some (5, 1, [Utf8.replacement, 'A'], 4) := by
    decide +kernel
  obtain ⟨script, isScript, facts⟩ := Option.map_eq_some_iff.mp known
  simp only [Prod.mk.injEq] at facts
  obtain ⟨codeLength, staticsSize, isName, nameSize⟩ := facts
  have isRead := toOption_eq_some_iff.mp isScript
  obtain ⟨header, written, rewritten⟩ := read_write_of_read isRead (by omega)
  exact ⟨script, header, written, isRead, codeLength, staticsSize, isName, rewritten⟩

end Script
end ScriptBytecode
