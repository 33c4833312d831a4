import ScriptBytecode.NativeTable
import ScriptBytecode.Script.Basic
import ScriptBytecode.Script.Header

/-!
# Reading containers

The blocks of a container are found by following the pointers in its header.  A pointer may lead
anywhere in the system segment, as long as the block it points to lies inside.
-/

namespace ScriptBytecode
namespace Segment

/-- The offset that a pointer stands for, if `size` bytes lie there in the segment. -/
def resolve (segment : Bytes) (region : Region) (pointer : UInt64) (size : Nat) :
    Except Error Nat :=
  let offset := pointer.toNat - segmentBase
  if segmentBase ≤ pointer.toNat ∧ offset + size ≤ segment.size then .ok offset
  else .error (.badPointer region pointer)

/-- The words at an offset. -/
def words (segment : Bytes) (offset count : Nat) : Array UInt64 :=
  (Array.range count).map fun index => (Bytes.uint64At? segment (offset + 8 * index)).getD 0

/-- The bytes at an offset. -/
def bytes (segment : Bytes) (offset count : Nat) : Bytes :=
  segment.extract offset (offset + count)

/-- A counted array of words.  The pointer of an empty array does not matter. -/
def wordArray (segment : Bytes) (region : Region) (pointer : UInt64) (count : Nat) :
    Except Error (Array UInt64) :=
  if count = 0 then .ok #[]
  else (resolve segment region pointer (8 * count)).map fun offset => words segment offset count

/-- A terminated text; the null pointer stands for no text. -/
def terminatedText (segment : Bytes) (region : Region) (pointer : UInt64) :
    Except Error String := do
  if pointer = 0 then return ""
  let offset ← resolve segment region pointer 0
  let rest := segment.extract offset segment.size
  if rest.contains 0 then return Utf8.decode (Script.untilZero rest)
  else throw (.malformed (.unterminated region))

/-- Reads the pages at the given offsets, each with `elementSize` bytes an element. -/
def readPages {α : Type} (segment : Bytes) (region : Region) (elementSize : Nat)
    (elements : (offset count : Nat) → Array α) (length : Nat) (offsets : Array Nat) :
    Except Error (Paged α) := do
  let pages ← offsets.mapIdxM fun index offset =>
    let count := pageSize index offsets.size length
    if offset + count * elementSize ≤ segment.size then
      (.ok (elements offset count) : Except Error (Array α))
    else .error (.malformed (.pagePastEnd region))
  return ⟨pages⟩

/-- A table of pages with `length` elements in all: the pointer leads to an array of pointers to
the pages. -/
def pageTable {α : Type} (segment : Bytes) (region : Region) (elementSize : Nat)
    (elements : (offset count : Nat) → Array α) (pointer : UInt64) (length : Nat) :
    Except Error (Paged α) := do
  if length = 0 then return .empty
  let pointers ← wordArray segment region pointer (pageCount length)
  let offsets ← pointers.mapM fun pointer => resolve segment region pointer 0
  readPages segment region elementSize elements length offsets

end Segment

namespace Script

/-- Reads a script from a system segment. -/
def read (segment : Bytes) : Except Error Script :=
  match Header.ofBytes? segment with
  | none => .error (.malformed (.shortSegment segment.size))
  | some header => do
    let codeLength := header.codeLength.toNat
    let codePages ← Segment.pageTable segment .codePages 1 (Segment.bytes segment)
      header.codePages codeLength
    let statics ← Segment.wordArray segment .statics header.statics header.staticsCount.toNat
    let globalsPages ← Segment.pageTable segment .globalsPages 8 (Segment.words segment)
      header.globalsPages header.globalsLength
    let entries ← Segment.wordArray segment .natives header.natives header.nativesCount.toNat
    let name ← Segment.terminatedText segment .name header.name
    let stringPages ← Segment.pageTable segment .stringPages 1 (Segment.bytes segment)
      header.stringPages header.stringsLength.toNat
    let globalBlockHashes ← Segment.wordArray segment .globalBlockHashes
      header.globalBlockHashes header.globalBlockCount.toNat
    return {
      vtable := header.vtable
      fileUnknown := header.fileUnknown
      globalsSignature := header.globalsSignature
      argsCount := header.argsCount
      globalsBlock := header.globalsBlock
      unknown48 := header.unknown48
      unknown50 := header.unknown50
      nameHash := header.nameHash
      refCount := header.refCount
      unknown74 := header.unknown74
      unknown78 := header.unknown78
      unknown80 := header.unknown80
      unknown88 := header.unknown88
      unknown90 := header.unknown90
      unknown98 := header.unknown98
      codePages
      statics
      globalsPages
      natives := NativeTable.decode entries codeLength
      name
      stringPages
      globalBlockHashes }

end Script
end ScriptBytecode
