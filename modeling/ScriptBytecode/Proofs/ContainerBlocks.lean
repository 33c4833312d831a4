import ScriptBytecode.Proofs.HeldBytes
import ScriptBytecode.Proofs.NativeDisguise
import ScriptBytecode.Script.Read
import ScriptBytecode.Script.Write

/-!
# The blocks of a written container

The layout gives the blocks of a container positions that follow each other, so that each block is
found at its position in the written bytes, and also when other bytes follow them.
-/

namespace ScriptBytecode

variable {script : Script} {written : Bytes}

/-! ## Content of a segment -/

theorem Segment.Holds.bytes_eq
    {segment : Bytes} {position : Nat} {page : Bytes}
    (holds : Holds segment position page.toList) :
    bytes segment position page.size = page :=
  holds.extract_eq

/-! ## Words -/

namespace Bytes

theorem toList_ofWords (words : Array UInt64) :
    (ofWords words).toList = words.toList.flatMap ofUInt64 := by
  have folded : ∀ (rest : List UInt64) (bytes : Bytes),
      (rest.foldl (fun (bytes : Bytes) word => bytes ++ ofUInt64 word) bytes).toList =
        bytes.toList ++ rest.flatMap ofUInt64 := by
    intro rest
    induction rest with
    | nil => simp
    | cons word rest ih =>
        intro bytes
        rw [List.foldl_cons, ih]
        simp
  rw [ofWords, ← Array.foldl_toList, folded]
  rfl

theorem length_ofUInt64 (value : UInt64) : (ofUInt64 value).length = 8 :=
  rfl

theorem length_flatMap_ofUInt64 (words : List UInt64) :
    (words.flatMap ofUInt64).length = 8 * words.length := by
  induction words with
  | nil => rfl
  | cons word rest ih =>
      rw [List.flatMap_cons, List.length_append, ih, length_ofUInt64,
        List.length_cons]
      omega

@[simp] theorem size_ofWords (words : Array UInt64) :
    (ofWords words).size = 8 * words.size := by
  rw [← Array.length_toList, toList_ofWords, length_flatMap_ofUInt64, Array.length_toList]

end Bytes

namespace Segment

theorem Holds.words_eq
    {segment : Bytes} {position : Nat} {values : Array UInt64}
    (holds : Holds segment position (Bytes.ofWords values).toList) :
    words segment position values.size = values := by
  apply Array.ext
  · simp [words]
  · intro index _ inValues
    rw [Bytes.toList_ofWords] at holds
    have divided : values.toList =
        values.toList.take index ++ values[index] :: values.toList.drop (index + 1) := by
      rw [← Array.getElem_toList inValues, List.getElem_cons_drop, List.take_append_drop]
    rw [divided, List.flatMap_append, List.flatMap_cons] at holds
    have found := holds.right.left.uint64At?_eq
    rw [Bytes.length_flatMap_ofUInt64, List.length_take,
      Nat.min_eq_left (Nat.le_of_lt (Array.length_toList ▸ inValues))] at found
    simp [words, found]

end Segment

/-! ## Blocks one after the other -/

/-- Blocks that follow each other from a position up to another one, each at the next position where
a block can stand. -/
def Spans (start : Nat) : List Block → (stop : Nat) → Prop
  | [], stop => start = stop
  | block :: rest, stop =>
    block.position = Layout.align start ∧ Spans (block.position + block.content.size) rest stop

/-- The most bytes that a list of blocks takes, with the gap in front of each. -/
def room (blocks : List Block) : Nat :=
  (blocks.map fun block => Layout.alignment + block.content.size).sum

namespace Spans

variable {start middle stop : Nat} {blocks first second : List Block}

theorem append
    (spansFirst : Spans start first middle)
    (spansSecond : Spans middle second stop) :
    Spans start (first ++ second) stop := by
  induction first generalizing start with
  | nil =>
      cases spansFirst
      exact spansSecond
  | cons block rest ih =>
      exact ⟨spansFirst.1, ih spansFirst.2⟩

theorem start_le (spans : Spans start blocks stop) : start ≤ stop := by
  induction blocks generalizing start with
  | nil => exact Nat.le_of_eq spans
  | cons block rest ih =>
      have aligned := Layout.le_align start
      have later := ih spans.2
      have here := spans.1
      omega

theorem stop_of_mem
    (spans : Spans start blocks stop)
    {block : Block}
    (member : block ∈ blocks) :
    block.position + block.content.size ≤ stop := by
  induction blocks generalizing start with
  | nil => cases member
  | cons head rest ih =>
      rcases List.mem_cons.mp member with rfl | later
      · exact start_le spans.2
      · exact ih spans.2 later

theorem stop_le (spans : Spans start blocks stop) : stop ≤ start + room blocks := by
  induction blocks generalizing start with
  | nil => exact Nat.le_of_eq spans.symm
  | cons block rest ih =>
      have aligned := Layout.align_lt start
      have later := ih spans.2
      have here := spans.1
      simp only [room, List.map_cons, List.sum_cons] at later ⊢
      omega

end Spans

theorem Block.toList_append
    {block : Block}
    (notBefore : written.size ≤ block.position) :
    (append written block).toList =
      (written.toList ++ List.replicate (block.position - written.size) 0) ++
        block.content.toList := by
  unfold append
  split
  · rename_i atEnd
    simp [atEnd]
  · simp [resize, Array.extract_eq_self_of_le notBefore]

/-- Blocks that follow written bytes are found at their positions, and the written bytes stay. -/
theorem Spans.holds
    {blocks : List Block} {stop : Nat}
    (spans : Spans written.size blocks stop) :
    Segment.Holds (blocks.foldl Block.append written) 0 written.toList ∧
      ∀ block ∈ blocks,
        Segment.Holds (blocks.foldl Block.append written) block.position block.content.toList := by
  induction blocks generalizing written with
  | nil => exact ⟨⟨[], [], by simp, rfl⟩, by simp⟩
  | cons block rest ih =>
      obtain ⟨aligned, later⟩ := spans
      have notBefore : written.size ≤ block.position := by
        rw [aligned]
        exact Layout.le_align _
      rw [← Block.size_append written block] at later
      obtain ⟨kept, found⟩ := ih later
      rw [Block.toList_append notBefore] at kept
      have atPosition := kept.right
      simp only [List.length_append, List.length_replicate, Array.length_toList, Nat.zero_add,
        Nat.add_sub_cancel' notBefore] at atPosition
      exact ⟨kept.left.left, List.forall_mem_cons.mpr ⟨atPosition, found⟩⟩

/-! ## The layout -/

namespace Layout

variable {size : Nat}

theorem isSome_placeNonempty
    (notEmpty : 0 < size)
    (position : Nat) :
    (placeNonempty position size).1.isSome := by
  rw [placeNonempty, if_pos notEmpty]
  rfl

theorem length_placePages (position : Nat) (sizes : List Nat) :
    (placePages position sizes).1.length = sizes.length := by
  induction sizes generalizing position with
  | nil => rfl
  | cons size rest ih => exact congrArg (· + 1) (ih _)

theorem spans_ofWords
    (position : Nat)
    {words : Array UInt64}
    (isSize : size = 8 * words.size) :
    Spans position (Block.ofWords (placeNonempty position size).1 words)
      (placeNonempty position size).2 := by
  unfold placeNonempty
  split
  · refine ⟨rfl, ?_⟩
    rw [Bytes.size_ofWords, ← isSize]
    rfl
  · rfl

theorem spans_pages (position : Nat) (pages : List Bytes) :
    Spans position (List.zipWith Block.mk (placePages position (pages.map Array.size)).1 pages)
      (placePages position (pages.map Array.size)).2 := by
  induction pages generalizing position with
  | nil => rfl
  | cons page rest ih => exact ⟨rfl, ih _⟩

theorem spans_ofTable
    (position : Nat)
    {pages : List Bytes} {sizes : List Nat}
    (isSizes : sizes = pages.map Array.size) :
    Spans position
      (Block.ofTable (placeTable position sizes).1 (placeTable position sizes).2.1 pages)
      (placeTable position sizes).2.2 := by
  subst isSizes
  cases pages with
  | nil => rfl
  | cons page rest =>
      have isTable : placeTable position ((page :: rest).map Array.size) =
          (some (align position), placePages
            (align position + 8 * ((page :: rest).map Array.size).length)
            ((page :: rest).map Array.size)) := rfl
      rw [isTable]
      refine ⟨rfl, ?_⟩
      simp only [Bytes.size_ofWords, List.size_toArray, List.length_map, length_placePages]
      exact spans_pages _ _

theorem spans_place
    (position : Nat)
    {content : Bytes}
    (isSize : size = content.size) :
    Spans position [⟨(place position size).1, content⟩] (place position size).2 := by
  subst isSize
  exact ⟨rfl, rfl⟩

end Layout

theorem Header.length_toBytes (header : Header) : header.toBytes.length = Header.length := by
  unfold toBytes
  simp only [List.length_append, Bytes.length_ofUInt32, Bytes.length_ofUInt64, Nat.reduceAdd,
    Header.length]

/-- The blocks of a script's container follow its header. -/
theorem Script.spans_blocks (script : Script) :
    Spans Header.length (script.blocks script.layout) script.layout.length := by
  have nativesSize : 8 * script.natives.size =
      8 * (NativeTable.encode script.natives script.codeLength).size := by
    rw [NativeTable.size_encode]
  have globalsSizes : (script.globalsPages.pages.toList.map fun page => 8 * page.size) =
      (script.globalsPages.pages.toList.map Bytes.ofWords).map Array.size := by
    simp
  have nameSize : (Utf8.encode script.name).size + 1 = ((Utf8.encode script.name).push 0).size :=
    (Array.size_push 0).symm
  unfold Script.blocks Script.layout
  exact ((((((Layout.spans_ofTable _ rfl).append (Layout.spans_ofWords _ rfl)).append
    (Layout.spans_ofTable _ globalsSizes)).append (Layout.spans_ofWords _ nativesSize)).append
    (Layout.spans_place _ nameSize)).append (Layout.spans_ofTable _ rfl)).append
    (Layout.spans_ofWords _ rfl)

/-- A container is written if the number of globals fits: the blocks follow the header. -/
theorem Script.write_eq_ok_iff :
    script.write = .ok written ↔
      script.globalsCount ≤ Header.maxGlobals ∧
        (script.blocks script.layout).foldl Block.append
          (script.header script.layout).toBytes.toArray = written := by
  unfold write
  split
  · rename_i tooMany
    simp [Nat.not_le_of_lt tooMany]
  · rename_i fits
    simp [Nat.le_of_not_lt fits]

/-- A written container has its header at the start and every block at its position. -/
theorem Script.holds_of_write
    (wrote : script.write = .ok written) :
    Segment.Holds written 0 (script.header script.layout).toBytes ∧
      ∀ block ∈ script.blocks script.layout,
        Segment.Holds written block.position block.content.toList := by
  obtain ⟨-, rfl⟩ := write_eq_ok_iff.mp wrote
  have spans := script.spans_blocks
  rw [← (script.header script.layout).length_toBytes, ← List.size_toArray] at spans
  exact spans.holds

/-- A layout has places for all of a script's pages, and for its tables and arrays unless they are
empty. -/
structure Layout.Fits (layout : Layout) (script : Script) : Prop where
  codeTable : 0 < script.codePages.pages.size → layout.codeTable.isSome
  codePages : layout.codePages.length = script.codePages.pages.size
  statics : 0 < script.statics.size → layout.statics.isSome
  globalsTable : 0 < script.globalsPages.pages.size → layout.globalsTable.isSome
  globalsPages : layout.globalsPages.length = script.globalsPages.pages.size
  natives : 0 < script.natives.size → layout.natives.isSome
  stringTable : 0 < script.stringPages.pages.size → layout.stringTable.isSome
  stringPages : layout.stringPages.length = script.stringPages.pages.size
  globalBlockHashes : 0 < script.globalBlockHashes.size → layout.globalBlockHashes.isSome

namespace Layout

theorem isSome_placeTable
    {sizes : List Nat}
    (notEmpty : 0 < sizes.length)
    (position : Nat) :
    (placeTable position sizes).1.isSome :=
  isSome_placeNonempty (Nat.mul_pos (by decide) notEmpty) position

theorem length_placeTable (position : Nat) (sizes : List Nat) :
    (placeTable position sizes).2.1.length = sizes.length :=
  length_placePages _ sizes

end Layout

theorem Script.layout_fits (script : Script) : script.layout.Fits script := by
  have codeCount : (script.codePages.pages.toList.map Array.size).length =
      script.codePages.pages.size := by simp
  have globalsCount : (script.globalsPages.pages.toList.map fun page => 8 * page.size).length =
      script.globalsPages.pages.size := by simp
  have stringCount : (script.stringPages.pages.toList.map Array.size).length =
      script.stringPages.pages.size := by simp
  have words : ∀ {count : Nat}, 0 < count → 0 < 8 * count := by omega
  unfold Script.layout
  exact
    { codeTable := fun notEmpty => Layout.isSome_placeTable (codeCount ▸ notEmpty) _
      codePages := (Layout.length_placeTable _ _).trans codeCount
      statics := fun notEmpty => Layout.isSome_placeNonempty (words notEmpty) _
      globalsTable := fun notEmpty => Layout.isSome_placeTable (globalsCount ▸ notEmpty) _
      globalsPages := (Layout.length_placeTable _ _).trans globalsCount
      natives := fun notEmpty => Layout.isSome_placeNonempty (words notEmpty) _
      stringTable := fun notEmpty => Layout.isSome_placeTable (stringCount ▸ notEmpty) _
      stringPages := (Layout.length_placeTable _ _).trans stringCount
      globalBlockHashes := fun notEmpty => Layout.isSome_placeNonempty (words notEmpty) _ }

end ScriptBytecode
