import ScriptBytecode.NativeTable
import ScriptBytecode.Script.Layout

/-!
# Writing containers

A container is written as its header and then every block at the position that the layout gives
it, with zeros in between.
-/

namespace ScriptBytecode

/-- A block of a container and its position. -/
structure Block where
  position : Nat
  content : Bytes
deriving DecidableEq, Repr

namespace Block

/-- Bytes brought to a size: cut off, or extended with zeros. -/
def resize (bytes : Bytes) (size : Nat) : Bytes :=
  bytes.extract 0 size ++ Array.replicate (size - bytes.size) 0

@[simp] theorem size_resize (bytes : Bytes) (size : Nat) : (resize bytes size).size = size := by
  unfold resize
  simp only [Array.size_append, Array.size_extract, Array.size_replicate]
  omega

/-- Appends a block at its position. -/
def append (written : Bytes) (block : Block) : Bytes :=
  if block.position = written.size then written ++ block.content
  else resize written block.position ++ block.content

@[simp] theorem size_append (written : Bytes) (block : Block) :
    (append written block).size = block.position + block.content.size := by
  unfold append
  split
  · rename_i atEnd
    simp [atEnd]
  · simp

/-- The block of an array of words, if it has a position. -/
def ofWords (position : Option Nat) (words : Array UInt64) : List Block :=
  match position with
  | some position => [⟨position, Bytes.ofWords words⟩]
  | none => []

/-- The blocks of a table of pages, if it has a position: the pointers to the pages, then the
pages. -/
def ofTable (table : Option Nat) (positions : List Nat) (pages : List Bytes) : List Block :=
  match table with
  | some position =>
    let pointers := positions.map fun page => pointerTo (some page)
    ⟨position, Bytes.ofWords pointers.toArray⟩ :: List.zipWith Block.mk positions pages
  | none => []

end Block

namespace Script

/-- The header of a script's container. -/
def header (script : Script) (layout : Layout) : Header :=
  { vtable := script.vtable
    fileUnknown := script.fileUnknown
    pagesInfo := 0
    codePages := pointerTo layout.codeTable
    globalsSignature := script.globalsSignature
    codeLength := UInt32.ofNat script.codeLength
    argsCount := script.argsCount
    staticsCount := UInt32.ofNat script.statics.size
    globalsWord := Header.packGlobals script.globalsLength script.globalsBlock
    nativesCount := UInt32.ofNat script.natives.size
    statics := pointerTo layout.statics
    globalsPages := pointerTo layout.globalsTable
    natives := pointerTo layout.natives
    unknown48 := script.unknown48
    unknown50 := script.unknown50
    nameHash := script.nameHash
    refCount := script.refCount
    name := pointerTo (some layout.name)
    stringPages := pointerTo layout.stringTable
    stringsLength := UInt32.ofNat script.stringsLength
    unknown74 := script.unknown74
    unknown78 := script.unknown78
    unknown80 := script.unknown80
    unknown88 := script.unknown88
    unknown90 := script.unknown90
    unknown98 := script.unknown98
    globalBlockCount := UInt32.ofNat script.globalBlockHashes.size
    globalBlockHashes := pointerTo layout.globalBlockHashes }

/-- The blocks of a script's container after the header, in order. -/
def blocks (script : Script) (layout : Layout) : List Block :=
  Block.ofTable layout.codeTable layout.codePages script.codePages.pages.toList ++
    Block.ofWords layout.statics script.statics ++
    Block.ofTable layout.globalsTable layout.globalsPages
      (script.globalsPages.pages.toList.map Bytes.ofWords) ++
    Block.ofWords layout.natives (NativeTable.encode script.natives script.codeLength) ++
    [⟨layout.name, (Utf8.encode script.name).push 0⟩] ++
    Block.ofTable layout.stringTable layout.stringPages script.stringPages.pages.toList ++
    Block.ofWords layout.globalBlockHashes script.globalBlockHashes

/-- The number of globals as it is counted for the header, in 32 bits. -/
def globalsCount (script : Script) : Nat :=
  script.globalsLength % 0x100000000

/-- Writes a script's container.  The number of globals has to fit in its field of the header. -/
def write (script : Script) : Except Error Bytes :=
  if Header.maxGlobals < script.globalsCount then
    .error (.malformed (.globalsTooLong script.globalsCount))
  else
    let layout := script.layout
    .ok ((script.blocks layout).foldl Block.append (script.header layout).toBytes.toArray)

end Script
end ScriptBytecode
