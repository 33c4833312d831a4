import ScriptBytecode.Error
import ScriptBytecode.NameHash
import ScriptBytecode.Paged

/-!
# Scripts

A script is what a container holds: header fields, code, statics, globals, native hashes, strings
and the hashes of global blocks.  The native hashes are the true ones, not their stored form.
-/

namespace ScriptBytecode

/-- A script.  The fields named by an offset have no known meaning; a new script has them zero. -/
structure Script where
  vtable : UInt32 := 0
  fileUnknown : UInt32 := 1
  globalsSignature : UInt32 := 0
  argsCount : UInt32 := 0
  /-- The index of the block of globals that the script owns. -/
  globalsBlock : UInt32 := 0
  unknown48 : UInt64 := 0
  unknown50 : UInt64 := 0
  nameHash : UInt32 := 0
  refCount : UInt32 := 1
  unknown74 : UInt32 := 0
  unknown78 : UInt64 := 0
  unknown80 : UInt64 := 0
  unknown88 : UInt64 := 0
  unknown90 : UInt64 := 0
  unknown98 : UInt64 := 0
  codePages : Paged UInt8 := .empty
  statics : Array UInt64 := #[]
  globalsPages : Paged UInt64 := .empty
  natives : Array UInt64 := #[]
  name : String := ""
  stringPages : Paged UInt8 := .empty
  globalBlockHashes : Array UInt64 := #[]
deriving DecidableEq, Repr

namespace Script

/-- A script under another name, with the hash of that name. -/
def withName (script : Script) (name : String) : Script :=
  { script with name, nameHash := ScriptBytecode.nameHash name }

/-- The code in one piece. -/
def code (script : Script) : Bytes :=
  script.codePages.flatten

/-- Number of code bytes. -/
def codeLength (script : Script) : Nat :=
  script.codePages.length

/-- Number of globals. -/
def globalsLength (script : Script) : Nat :=
  script.globalsPages.length

/-- Number of bytes of the string pages. -/
def stringsLength (script : Script) : Nat :=
  script.stringPages.length

/-- The hash of the native at an index. -/
def nativeHash (script : Script) (index : Nat) : Except Error UInt64 :=
  match script.natives[index]? with
  | some hash => .ok hash
  | none => .error (.nativeIndexOutOfRange index script.natives.size)

/-- The bytes up to the first zero byte, or all of them if there is none. -/
def untilZero (bytes : Bytes) : Bytes :=
  bytes.takeWhile (· != 0)

/-- The string with an id: the page number and the offset in the page.  It ends with the page at
the latest. -/
def string? (script : Script) (id : Nat) : Option String := do
  let page ← script.stringPages.pages[id / pageLength]?
  let start := id % pageLength
  if start ≤ page.size then some (Utf8.decode (untilZero (page.extract start page.size))) else none

/-- The id of an offset in a page. -/
def stringId (pageIndex offset : Nat) : Nat :=
  pageIndex <<< 14 ||| offset

/-- Reads the bytes of a page, with the ids of the strings that begin in it.  A string that was not
terminated in the page before goes on. -/
def pageStringIds (pageIndex : Nat) (page : Bytes) (inString : Bool) (ids : Array Nat) :
    Array Nat × Bool :=
  let (ids, inString, _) := page.foldl
    (fun ((ids, inString, offset) : Array Nat × Bool × Nat) byte =>
      let ids := if inString then ids else ids.push (stringId pageIndex offset)
      (ids, byte != 0, offset + 1))
    (ids, inString, 0)
  (ids, inString)

/-- The ids of all strings in the string pages, in order. -/
def stringIds (script : Script) : Array Nat :=
  let (ids, _, _) := script.stringPages.pages.foldl
    (fun ((ids, inString, pageIndex) : Array Nat × Bool × Nat) page =>
      let (ids, inString) := pageStringIds pageIndex page inString ids
      (ids, inString, pageIndex + 1))
    (#[], false, 0)
  ids

end Script
end ScriptBytecode
