import Mathlib.Data.List.Forall2
import ScriptBytecode.Proofs.ContainerHeader

/-!
# The layout of a written container

The layout of a container is computed before anything is written, and the writer goes through the
script once more.  Both agree for every script, whatever the sizes of its pages and arrays: blocks
stand apart from each other at the positions of the layout, pointers lead to these positions, and
the bytes in between are zero.
-/

namespace ScriptBytecode

variable {written : Bytes} {index : Nat}

/-- A stretch of a segment: where a block begins and how many bytes it takes. -/
structure Extent where
  start : Nat
  size : Nat
deriving DecidableEq, Repr

namespace Extent

/-- The position after a stretch. -/
def stop (extent : Extent) : Nat :=
  extent.start + extent.size

/-- A stretch has the byte at an index. -/
def Covers (extent : Extent) (index : Nat) : Prop :=
  extent.start ≤ index ∧ index < extent.stop

/-- The stretch of a block. -/
def ofBlock (block : Block) : Extent :=
  ⟨block.position, block.content.size⟩

/-- The stretch of an array of words, if it has a position. -/
def ofWords (position : Option Nat) (count : Nat) : List Extent :=
  position.toList.map fun start => ⟨start, 8 * count⟩

/-- The stretches of a table of pages: that of the pointers, if it has a position, then those of the
pages. -/
def ofTable (table : Option Nat) (positions sizes : List Nat) : List Extent :=
  ofWords table positions.length ++ List.zipWith mk positions sizes

end Extent

/-- The stretches of all blocks of a script's container, in order. -/
def Script.extents (script : Script) (layout : Layout) : List Extent :=
  Extent.ofTable layout.codeTable layout.codePages
      (script.codePages.pages.toList.map Array.size) ++
    Extent.ofWords layout.statics script.statics.size ++
    Extent.ofTable layout.globalsTable layout.globalsPages
      (script.globalsPages.pages.toList.map fun page => 8 * page.size) ++
    Extent.ofWords layout.natives script.natives.size ++
    [⟨layout.name, script.name.utf8ByteSize + 1⟩] ++
    Extent.ofTable layout.stringTable layout.stringPages
      (script.stringPages.pages.toList.map Array.size) ++
    Extent.ofWords layout.globalBlockHashes script.globalBlockHashes.size

/-- All positions in a layout, in order. -/
def Layout.positions (layout : Layout) : List Nat :=
  layout.codeTable.toList ++ layout.codePages ++ layout.statics.toList ++
    layout.globalsTable.toList ++ layout.globalsPages ++ layout.natives.toList ++
    [layout.name] ++ layout.stringTable.toList ++ layout.stringPages ++
    layout.globalBlockHashes.toList

/-- The positions of a layout are good for the blocks of a script. -/
structure Layout.Separates (layout : Layout) (script : Script) : Prop where
  aligned : ∀ position ∈ layout.positions, Layout.alignment ∣ position
  behindHeader : ∀ position ∈ layout.positions, Header.length ≤ position
  /-- Every position is that of a block. -/
  starts : (script.extents layout).map Extent.start = layout.positions
  disjoint : (script.extents layout).Pairwise fun first second => first.stop ≤ second.start
  inside : ∀ extent ∈ script.extents layout, extent.stop ≤ layout.length
  /-- A pointer is not cut off as long as the segment ends within the 64-bit addresses. -/
  pointers : segmentBase + layout.length < 2 ^ 64 →
    ∀ position ∈ layout.positions, (pointerTo (some position)).toNat = segmentBase + position

namespace Segment

/-- A segment has an array of words at its position; an array that is empty, and no other, has no
position. -/
structure HasWords (segment : Bytes) (position : Option Nat) (words : Array UInt64) : Prop where
  present : position.isSome ↔ 0 < words.size
  stored : ∀ start, position = some start → Holds segment start (Bytes.ofWords words).toList

/-- A segment has a table of pages: an array of the pointers to the pages, and each page at its
position. -/
structure HasTable (segment : Bytes) (table : Option Nat) (positions : List Nat)
    (pages : List Bytes) : Prop where
  pointers : HasWords segment table (positions.map fun page => pointerTo (some page)).toArray
  pages : List.Forall₂ (fun position page => Holds segment position page.toList) positions pages

end Segment

/-- A segment is what a layout says of a script's container. -/
structure Script.LaidOut (script : Script) (layout : Layout) (segment : Bytes) : Prop where
  size : segment.size = layout.length
  header : ∃ header, Header.ofBytes? segment = some header ∧
    header.codePages = pointerTo layout.codeTable ∧
    header.statics = pointerTo layout.statics ∧
    header.globalsPages = pointerTo layout.globalsTable ∧
    header.natives = pointerTo layout.natives ∧
    header.name = pointerTo (some layout.name) ∧
    header.stringPages = pointerTo layout.stringTable ∧
    header.globalBlockHashes = pointerTo layout.globalBlockHashes
  code : Segment.HasTable segment layout.codeTable layout.codePages script.codePages.pages.toList
  statics : Segment.HasWords segment layout.statics script.statics
  globals : Segment.HasTable segment layout.globalsTable layout.globalsPages
    (script.globalsPages.pages.toList.map Bytes.ofWords)
  natives : Segment.HasWords segment layout.natives
    (NativeTable.encode script.natives script.codeLength)
  name : Segment.Holds segment layout.name ((Utf8.encode script.name).push 0).toList
  strings : Segment.HasTable segment layout.stringTable layout.stringPages
    script.stringPages.pages.toList
  hashes : Segment.HasWords segment layout.globalBlockHashes script.globalBlockHashes
  zeros : ∀ index, Header.length ≤ index → index < segment.size →
    (∀ extent ∈ script.extents layout, ¬extent.Covers index) → segment[index]? = some 0

/-! ## Blocks that follow each other -/

namespace Spans

variable {start stop : Nat} {blocks first second : List Block} {block : Block}

theorem start_le_of_mem
    (spans : Spans start blocks stop)
    (member : block ∈ blocks) :
    start ≤ block.position := by
  induction blocks generalizing start with
  | nil => cases member
  | cons head rest ih =>
      have aligned : start ≤ head.position := spans.1 ▸ Layout.le_align start
      rcases List.mem_cons.mp member with rfl | later
      · exact aligned
      · have notBefore := ih spans.2 later
        omega

theorem aligned_of_mem
    (spans : Spans start blocks stop)
    (member : block ∈ blocks) :
    Layout.alignment ∣ block.position := by
  induction blocks generalizing start with
  | nil => cases member
  | cons head rest ih =>
      rcases List.mem_cons.mp member with rfl | later
      · exact spans.1 ▸ Layout.alignment_dvd_align start
      · exact ih spans.2 later

/-- A block begins where all blocks before it have ended. -/
theorem pairwise (spans : Spans start blocks stop) :
    (blocks.map Extent.ofBlock).Pairwise fun first second => first.stop ≤ second.start := by
  induction blocks generalizing start with
  | nil => exact .nil
  | cons block rest ih =>
      refine .cons ?_ (ih spans.2)
      intro extent member
      obtain ⟨other, isOther, rfl⟩ := List.mem_map.mp member
      exact start_le_of_mem spans.2 isOther

/-- Blocks that follow each other do so up to any of them. -/
theorem divide (spans : Spans start (first ++ second) stop) :
    ∃ middle, Spans start first middle ∧ Spans middle second stop := by
  induction first generalizing start with
  | nil => exact ⟨start, rfl, spans⟩
  | cons block rest ih =>
      obtain ⟨middle, later, others⟩ := ih spans.2
      exact ⟨middle, ⟨spans.1, later⟩, others⟩

variable {written : Bytes}

/-- What is written ends with the last block. -/
theorem size_foldl (spans : Spans written.size blocks stop) :
    (blocks.foldl Block.append written).size = stop := by
  induction blocks generalizing written with
  | nil => exact spans
  | cons block rest ih =>
      apply ih
      rw [Block.size_append]
      exact spans.2

/-- No block has to be written before the end of what was written. -/
theorem size_foldl_le
    (spans : Spans written.size (first ++ block :: second) stop) :
    (first.foldl Block.append written).size ≤ block.position := by
  obtain ⟨middle, before, isNext, -⟩ := spans.divide
  rw [before.size_foldl, isNext]
  exact Layout.le_align middle

end Spans

/-- The gap in front of a block is filled with zeros. -/
theorem Block.getElem?_append_gap
    {block : Block}
    (behind : written.size ≤ index)
    (before : index < block.position) :
    (append written block)[index]? = some 0 := by
  rw [← Array.getElem?_toList, toList_append (by omega),
    List.getElem?_append_left (by simp; omega),
    List.getElem?_append_right (by simpa using behind), List.getElem?_replicate_of_lt]
  simp only [Array.length_toList]
  omega

/-- Between the blocks there are zeros. -/
theorem Spans.zeros
    {blocks : List Block} {stop : Nat}
    (spans : Spans written.size blocks stop)
    (behind : written.size ≤ index)
    (inside : index < stop)
    (uncovered : ∀ extent ∈ blocks.map Extent.ofBlock, ¬extent.Covers index) :
    (blocks.foldl Block.append written)[index]? = some 0 := by
  induction blocks generalizing written with
  | nil =>
      have atEnd : written.size = stop := spans
      omega
  | cons block rest ih =>
      obtain ⟨aligned, later⟩ := spans
      obtain ⟨notHere, notLater⟩ := List.forall_mem_cons.mp uncovered
      rw [← Block.size_append written block] at later
      rw [List.foldl_cons]
      rcases Nat.lt_or_ge index (Block.append written block).size with here | beyond
      · -- The later blocks leave alone what was written up to this one.
        have kept := later.holds.1.getElem?_eq index (by simpa using here)
        rw [Nat.zero_add, Array.getElem?_toList] at kept
        rw [kept]
        apply Block.getElem?_append_gap behind
        rw [Block.size_append] at here
        apply Nat.lt_of_not_le
        exact fun reached => notHere ⟨reached, here⟩
      · exact ih later beyond notLater

/-! ## The blocks of a script -/

namespace Extent

variable {positions : List Nat}

theorem map_ofBlock_ofWords (position : Option Nat) (words : Array UInt64) :
    (Block.ofWords position words).map ofBlock = ofWords position words.size := by
  cases position with
  | none => rfl
  | some start => simp [Block.ofWords, ofWords, ofBlock]

theorem map_ofBlock_pages (positions : List Nat) (pages : List Bytes) :
    (List.zipWith Block.mk positions pages).map ofBlock =
      List.zipWith mk positions (pages.map Array.size) := by
  rw [List.map_zipWith, List.zipWith_map_right]
  rfl

/-- A table of pages has its stretches; a table without a position has no pages. -/
theorem map_ofBlock_ofTable
    {table : Option Nat} {pages : List Bytes}
    (placed : 0 < pages.length → table.isSome) :
    (Block.ofTable table positions pages).map ofBlock =
      ofTable table positions (pages.map Array.size) := by
  cases table with
  | none =>
      have noPages : pages = [] := by
        cases pages with
        | nil => rfl
        | cons page rest => cases placed (Nat.zero_lt_succ _)
      simp [Block.ofTable, ofTable, ofWords, noPages]
  | some start =>
      simp only [Block.ofTable, ofTable, List.map_cons, map_ofBlock_pages]
      simp [ofWords, ofBlock]

theorem map_start_ofWords (position : Option Nat) (count : Nat) :
    (ofWords position count).map start = position.toList := by
  cases position <;> rfl

theorem map_start_ofTable
    (table : Option Nat)
    {sizes : List Nat}
    (count : positions.length = sizes.length) :
    (ofTable table positions sizes).map start = table.toList ++ positions := by
  have starts : (List.zipWith mk positions sizes).map start = positions := by
    rw [← List.map_uncurry_zip_eq_zipWith, List.map_map]
    exact List.map_fst_zip (Nat.le_of_eq count)
  rw [ofTable, List.map_append, map_start_ofWords, starts]

end Extent

/-- A layout has no places for tables and arrays that are empty. -/
structure Layout.Sparse (layout : Layout) (script : Script) : Prop where
  codeTable : layout.codeTable.isSome → 0 < script.codePages.pages.size
  statics : layout.statics.isSome → 0 < script.statics.size
  globalsTable : layout.globalsTable.isSome → 0 < script.globalsPages.pages.size
  natives : layout.natives.isSome → 0 < script.natives.size
  stringTable : layout.stringTable.isSome → 0 < script.stringPages.pages.size
  globalBlockHashes : layout.globalBlockHashes.isSome → 0 < script.globalBlockHashes.size

theorem Layout.pos_of_isSome_placeNonempty
    {position count size : Nat}
    (isSize : size = 8 * count)
    (placed : (placeNonempty position size).1.isSome) :
    0 < count := by
  unfold placeNonempty at placed
  split at placed
  · omega
  · cases placed

namespace Segment

variable {segment : Bytes} {positions : List Nat} {pages : List Bytes}

theorem hasWords_of_blocks
    {position : Option Nat} {words : Array UInt64}
    (needed : position.isSome → 0 < words.size)
    (placed : 0 < words.size → position.isSome)
    (stored : ∀ block ∈ Block.ofWords position words,
      Holds segment block.position block.content.toList) :
    HasWords segment position words := by
  refine ⟨⟨needed, placed⟩, ?_⟩
  rintro start rfl
  exact stored _ List.mem_cons_self

theorem forall₂_of_blocks
    (count : positions.length = pages.length)
    (stored : ∀ block ∈ List.zipWith Block.mk positions pages,
      Holds segment block.position block.content.toList) :
    List.Forall₂ (fun position page => Holds segment position page.toList) positions pages := by
  rw [List.forall₂_iff_zip]
  refine ⟨count, fun {position page} member => stored ⟨position, page⟩ ?_⟩
  rw [← List.map_uncurry_zip_eq_zipWith]
  exact List.mem_map_of_mem member

theorem hasTable_of_blocks
    {table : Option Nat}
    (count : positions.length = pages.length)
    (needed : table.isSome → 0 < pages.length)
    (placed : 0 < pages.length → table.isSome)
    (stored : ∀ block ∈ Block.ofTable table positions pages,
      Holds segment block.position block.content.toList) :
    HasTable segment table positions pages := by
  have pointerCount : (positions.map fun page => pointerTo (some page)).toArray.size =
      pages.length := by
    simpa using count
  constructor
  · apply hasWords_of_blocks (pointerCount ▸ needed) (pointerCount ▸ placed)
    intro block member
    cases table with
    | none => cases member
    | some start =>
        rw [List.mem_singleton.mp member]
        exact stored _ List.mem_cons_self
  · cases table with
    | none =>
        cases pages with
        | nil =>
            rw [List.length_eq_zero_iff.mp count]
            exact .nil
        | cons page rest => cases placed (Nat.zero_lt_succ _)
    | some start =>
        exact forall₂_of_blocks count fun block member =>
          stored block (List.mem_cons_of_mem _ member)

end Segment

namespace Script

variable {script : Script}

theorem layout_sparse (script : Script) : script.layout.Sparse script := by
  unfold Script.layout
  exact
    { codeTable := Layout.pos_of_isSome_placeNonempty (by simp)
      statics := Layout.pos_of_isSome_placeNonempty rfl
      globalsTable := Layout.pos_of_isSome_placeNonempty (by simp)
      natives := Layout.pos_of_isSome_placeNonempty rfl
      stringTable := Layout.pos_of_isSome_placeNonempty (by simp)
      globalBlockHashes := Layout.pos_of_isSome_placeNonempty rfl }

theorem map_ofBlock_blocks (script : Script) :
    (script.blocks script.layout).map Extent.ofBlock = script.extents script.layout := by
  have fits := script.layout_fits
  have globalsSizes : (script.globalsPages.pages.toList.map Bytes.ofWords).map Array.size =
      script.globalsPages.pages.toList.map fun page => 8 * page.size := by
    rw [List.map_map]
    exact List.map_congr_left fun page _ => Bytes.size_ofWords page
  have name : [(⟨script.layout.name, (Utf8.encode script.name).push 0⟩ : Block)].map
      Extent.ofBlock = [⟨script.layout.name, script.name.utf8ByteSize + 1⟩] := by
    rw [List.map_singleton, Extent.ofBlock, Array.size_push]
    rfl
  unfold blocks extents
  simp only [List.map_append, Extent.map_ofBlock_ofWords, NativeTable.size_encode, name]
  rw [Extent.map_ofBlock_ofTable (by simpa using fits.codeTable),
    Extent.map_ofBlock_ofTable (by simpa using fits.globalsTable),
    Extent.map_ofBlock_ofTable (by simpa using fits.stringTable), globalsSizes]

theorem map_start_extents (script : Script) :
    (script.extents script.layout).map Extent.start = script.layout.positions := by
  have fits := script.layout_fits
  unfold extents Layout.positions
  simp only [List.map_append, Extent.map_start_ofWords]
  rw [Extent.map_start_ofTable _ (by simpa using fits.codePages),
    Extent.map_start_ofTable _ (by simpa using fits.globalsPages),
    Extent.map_start_ofTable _ (by simpa using fits.stringPages)]
  simp only [List.append_assoc, List.map_singleton]

theorem exists_block_of_mem_positions
    {position : Nat}
    (member : position ∈ script.layout.positions) :
    ∃ block ∈ script.blocks script.layout, block.position = position := by
  rw [← map_start_extents, ← map_ofBlock_blocks, List.map_map] at member
  exact List.mem_map.mp member

theorem layout_separates (script : Script) : script.layout.Separates script := by
  have spans := script.spans_blocks
  have extents := script.map_ofBlock_blocks
  constructor
  case aligned =>
    intro position member
    obtain ⟨block, isBlock, rfl⟩ := exists_block_of_mem_positions member
    exact spans.aligned_of_mem isBlock
  case behindHeader =>
    intro position member
    obtain ⟨block, isBlock, rfl⟩ := exists_block_of_mem_positions member
    exact spans.start_le_of_mem isBlock
  case starts => exact script.map_start_extents
  case disjoint =>
    rw [← extents]
    exact spans.pairwise
  case inside =>
    intro extent member
    rw [← extents] at member
    obtain ⟨block, isBlock, rfl⟩ := List.mem_map.mp member
    exact spans.stop_of_mem isBlock
  case pointers =>
    intro addresses position member
    obtain ⟨block, isBlock, rfl⟩ := exists_block_of_mem_positions member
    have inside := spans.stop_of_mem isBlock
    rw [pointerTo, UInt64.toNat_ofNat', Nat.mod_eq_of_lt (by omega)]

/-- The blocks begin where the header ends. -/
theorem spans_written (script : Script) :
    Spans (script.header script.layout).toBytes.toArray.size (script.blocks script.layout)
      script.layout.length := by
  rw [List.size_toArray, Header.length_toBytes]
  exact script.spans_blocks

theorem laidOut_of_write
    {written : Bytes}
    (wrote : script.write = .ok written) :
    script.LaidOut script.layout written := by
  have isHeader := ofBytes?_of_write wrote
  have stored := (holds_of_write wrote).2
  obtain ⟨-, rfl⟩ := write_eq_ok_iff.mp wrote
  have spans := script.spans_written
  have fits := script.layout_fits
  have sparse := script.layout_sparse
  obtain ⟨⟨⟨⟨⟨⟨code, statics⟩, globals⟩, natives⟩, name⟩, strings⟩, hashes⟩ := by
    simpa only [Script.blocks, List.forall_mem_append] using stored
  exact
    { size := spans.size_foldl
      header := ⟨_, isHeader, rfl, rfl, rfl, rfl, rfl, rfl, rfl⟩
      code := Segment.hasTable_of_blocks (by simpa using fits.codePages)
        (by simpa using sparse.codeTable) (by simpa using fits.codeTable) code
      statics := Segment.hasWords_of_blocks sparse.statics fits.statics statics
      globals := Segment.hasTable_of_blocks (by simpa using fits.globalsPages)
        (by simpa using sparse.globalsTable) (by simpa using fits.globalsTable) globals
      natives := Segment.hasWords_of_blocks
        (by simpa only [NativeTable.size_encode] using sparse.natives)
        (by simpa only [NativeTable.size_encode] using fits.natives) natives
      name := name _ List.mem_cons_self
      strings := Segment.hasTable_of_blocks (by simpa using fits.stringPages)
        (by simpa using sparse.stringTable) (by simpa using fits.stringTable) strings
      hashes := Segment.hasWords_of_blocks sparse.globalBlockHashes fits.globalBlockHashes hashes
      zeros := by
        intro index behind inside uncovered
        rw [spans.size_foldl] at inside
        rw [← map_ofBlock_blocks] at uncovered
        apply spans.zeros _ inside uncovered
        rwa [List.size_toArray, Header.length_toBytes] }

/-- Layout and writer agree on every script.  The layout keeps the blocks apart; no block is written
before the end of what was written, so that nothing is cut off; and a written container has every
block at its position, with zeros in between. -/
theorem layout_agrees_with_write (script : Script) :
    script.layout.Separates script ∧
      (∀ before block after, script.blocks script.layout = before ++ block :: after →
        (before.foldl Block.append (script.header script.layout).toBytes.toArray).size ≤
          block.position) ∧
      ∀ written, script.write = .ok written → script.LaidOut script.layout written := by
  refine ⟨script.layout_separates, ?_, fun _ wrote => laidOut_of_write wrote⟩
  intro before block after isBlocks
  have spans := script.spans_written
  rw [isBlocks] at spans
  exact spans.size_foldl_le

/-- A script with empty pages between others, arrays of odd sizes and no strings. -/
def unevenScript : Script :=
  { codePages := ⟨#[#[0x13, 0x13, 0x13], #[], #[0x13]]⟩
    statics := #[5]
    globalsPages := ⟨#[#[], #[7]]⟩
    natives := #[0x1122334455667788]
    name := "uneven"
    globalBlockHashes := #[0xABCD] }

theorem layout_agrees_with_write_unevenScript :
    unevenScript.layout.codePages = [208, 224, 224] ∧ unevenScript.layout.stringTable = none ∧
      ∃ written, unevenScript.write = .ok written ∧
        unevenScript.LaidOut unevenScript.layout written := by
  have wrote := write_eq_ok_iff.mpr ⟨show unevenScript.globalsCount ≤ Header.maxGlobals by
    decide +kernel, rfl⟩
  obtain ⟨-, -, laidOut⟩ := layout_agrees_with_write unevenScript
  exact ⟨by decide +kernel, by decide +kernel, _, wrote, laidOut _ wrote⟩

end Script
end ScriptBytecode
