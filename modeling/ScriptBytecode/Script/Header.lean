import ScriptBytecode.Bytes

/-!
# The container header

The header has fields of four and eight bytes one after the other, without alignment.  Positions of
blocks are given as pointers: the offset in the system segment plus a base address, or zero for a
block that is absent.
-/

namespace ScriptBytecode

/-- The header as it is stored. -/
structure Header where
  vtable : UInt32
  fileUnknown : UInt32
  pagesInfo : UInt64
  codePages : UInt64
  globalsSignature : UInt32
  codeLength : UInt32
  argsCount : UInt32
  staticsCount : UInt32
  /-- The number of globals in the low 18 bits and the block of globals in the others. -/
  globalsWord : UInt32
  nativesCount : UInt32
  statics : UInt64
  globalsPages : UInt64
  natives : UInt64
  unknown48 : UInt64
  unknown50 : UInt64
  nameHash : UInt32
  refCount : UInt32
  name : UInt64
  stringPages : UInt64
  stringsLength : UInt32
  unknown74 : UInt32
  unknown78 : UInt64
  unknown80 : UInt64
  unknown88 : UInt64
  unknown90 : UInt64
  unknown98 : UInt64
  globalBlockCount : UInt32
  globalBlockHashes : UInt64
deriving DecidableEq, Repr

namespace Header

/-- Number of bytes of the header. -/
def length : Nat := 172

/-- The bytes of a header. -/
def toBytes (header : Header) : List UInt8 :=
  Bytes.ofUInt32 header.vtable ++ Bytes.ofUInt32 header.fileUnknown ++
    Bytes.ofUInt64 header.pagesInfo ++ Bytes.ofUInt64 header.codePages ++
    Bytes.ofUInt32 header.globalsSignature ++ Bytes.ofUInt32 header.codeLength ++
    Bytes.ofUInt32 header.argsCount ++ Bytes.ofUInt32 header.staticsCount ++
    Bytes.ofUInt32 header.globalsWord ++ Bytes.ofUInt32 header.nativesCount ++
    Bytes.ofUInt64 header.statics ++ Bytes.ofUInt64 header.globalsPages ++
    Bytes.ofUInt64 header.natives ++ Bytes.ofUInt64 header.unknown48 ++
    Bytes.ofUInt64 header.unknown50 ++ Bytes.ofUInt32 header.nameHash ++
    Bytes.ofUInt32 header.refCount ++ Bytes.ofUInt64 header.name ++
    Bytes.ofUInt64 header.stringPages ++ Bytes.ofUInt32 header.stringsLength ++
    Bytes.ofUInt32 header.unknown74 ++ Bytes.ofUInt64 header.unknown78 ++
    Bytes.ofUInt64 header.unknown80 ++ Bytes.ofUInt64 header.unknown88 ++
    Bytes.ofUInt64 header.unknown90 ++ Bytes.ofUInt64 header.unknown98 ++
    Bytes.ofUInt32 header.globalBlockCount ++ Bytes.ofUInt64 header.globalBlockHashes

/-- Reads the header at the start of a segment, if the segment is long enough. -/
def ofBytes? (segment : Bytes) : Option Header := do
  return {
    vtable := ← Bytes.uint32At? segment 0
    fileUnknown := ← Bytes.uint32At? segment 4
    pagesInfo := ← Bytes.uint64At? segment 8
    codePages := ← Bytes.uint64At? segment 16
    globalsSignature := ← Bytes.uint32At? segment 24
    codeLength := ← Bytes.uint32At? segment 28
    argsCount := ← Bytes.uint32At? segment 32
    staticsCount := ← Bytes.uint32At? segment 36
    globalsWord := ← Bytes.uint32At? segment 40
    nativesCount := ← Bytes.uint32At? segment 44
    statics := ← Bytes.uint64At? segment 48
    globalsPages := ← Bytes.uint64At? segment 56
    natives := ← Bytes.uint64At? segment 64
    unknown48 := ← Bytes.uint64At? segment 72
    unknown50 := ← Bytes.uint64At? segment 80
    nameHash := ← Bytes.uint32At? segment 88
    refCount := ← Bytes.uint32At? segment 92
    name := ← Bytes.uint64At? segment 96
    stringPages := ← Bytes.uint64At? segment 104
    stringsLength := ← Bytes.uint32At? segment 112
    unknown74 := ← Bytes.uint32At? segment 116
    unknown78 := ← Bytes.uint64At? segment 120
    unknown80 := ← Bytes.uint64At? segment 128
    unknown88 := ← Bytes.uint64At? segment 136
    unknown90 := ← Bytes.uint64At? segment 144
    unknown98 := ← Bytes.uint64At? segment 152
    globalBlockCount := ← Bytes.uint32At? segment 160
    globalBlockHashes := ← Bytes.uint64At? segment 164 }

/-- Number of bits of the globals word that hold the number of globals. -/
def globalsLengthBits : Nat := 18

/-- Greatest number of globals that the globals word can hold. -/
def maxGlobals : Nat := (1 <<< globalsLengthBits) - 1

/-- Packs a number of globals and a block into the globals word; of the block only the low bits
remain. -/
def packGlobals (globalsLength : Nat) (block : UInt32) : UInt32 :=
  UInt32.ofNat globalsLength ||| block <<< 18

/-- The number of globals in a globals word. -/
def globalsLength (header : Header) : Nat :=
  (header.globalsWord &&& 0x3FFFF).toNat

/-- The block of globals in a globals word. -/
def globalsBlock (header : Header) : UInt32 :=
  header.globalsWord >>> 18

end Header

/-- The address that offsets in the system segment are counted from. -/
def segmentBase : Nat := 0x50000000

/-- The pointer to an offset, or the null pointer. -/
def pointerTo : Option Nat → UInt64
  | some offset => UInt64.ofNat (segmentBase + offset)
  | none => 0

end ScriptBytecode
