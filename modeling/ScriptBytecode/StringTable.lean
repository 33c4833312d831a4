import ScriptBytecode.Error
import ScriptBytecode.Paged
import ScriptBytecode.Text.Utf8

/-!
# The string segment in the making

Strings are stored one after the other with a terminator each.  A string and its terminator lie in
one page: when they would not, the rest of the page is filled with zeros and the string starts the
next page.  The id of a string is its offset in the segment, and a string is stored once however
often it is added.

A call that fails reports an error and keeps the table as it is at that moment.
-/

namespace ScriptBytecode

/-- A string segment and the ids of its strings. -/
structure StringTable where
  data : Bytes := #[]
  /-- The id under which a string was first stored. -/
  ids : List (String × Nat) := []
deriving DecidableEq, Repr

/-- A call of a string table: it changes the table, also when it fails. -/
abbrev TableM := EStateM Error StringTable

namespace StringTable

/-- The segment's bytes extended with zeros to at least a size. -/
def zeroExtend (data : Bytes) (size : Nat) : Bytes :=
  data ++ Array.replicate (size - data.size) 0

/-- The id of a string. -/
def idOf? (table : StringTable) (text : String) : Option Nat :=
  table.ids.lookup text

/-- Stores a string at an offset that is not before the end of the segment. -/
def store (table : StringTable) (offset : Nat) (text : String) : StringTable :=
  { data := (zeroExtend table.data offset ++ Utf8.encode text).push 0
    ids := if (table.idOf? text).isSome then table.ids else (text, offset) :: table.ids }

/-- The first offset from the end of a segment on at which `size` bytes lie in one page. -/
def nextOffset (stop size : Nat) : Nat :=
  if stop % pageLength + size > pageLength then stop + (pageLength - stop % pageLength) else stop

theorem le_nextOffset (stop size : Nat) : stop ≤ nextOffset stop size := by
  unfold nextOffset
  split <;> omega

/-- Bytes that fit in a page lie in one page at the next offset. -/
theorem nextOffset_mod_add_le (stop size : Nat) (fits : size ≤ pageLength) :
    nextOffset stop size % pageLength + size ≤ pageLength := by
  unfold nextOffset
  split
  · rename_i crossing
    have aligned : (stop + (pageLength - stop % pageLength)) % pageLength = 0 := by
      unfold pageLength at *
      omega
    omega
  · rename_i together
    omega

/-- Adds a string, unless it is stored already, and answers its id. -/
def add (text : String) : TableM Nat := fun table =>
  match table.idOf? text with
  | some id => .ok id table
  | none =>
    let size := (Utf8.encode text).size
    if pageLength < size + 1 then .error (.malformed (.stringTooLong size)) table
    else
      let id := nextOffset table.data.size (size + 1)
      .ok id (table.store id text)

/-- Stores a string at a given id, which may not be before the end of the segment nor let the
string reach into the next page. -/
def place (id : Nat) (text : String) : TableM Unit := fun table =>
  let last := id + (Utf8.encode text).size
  if id < table.data.size ∨ id / pageLength ≠ last / pageLength then
    .error (.malformed (.stringOverlap id)) table
  else .ok () (table.store id text)

/-- Extends the segment with zeros to at least a size. -/
def padTo (table : StringTable) (size : Nat) : StringTable :=
  { table with data := zeroExtend table.data size }

/-- The table that calls leave if none of them fails. -/
def result {α : Type} (calls : TableM α) (table : StringTable) : Except Error StringTable :=
  match calls table with
  | .ok _ next => .ok next
  | .error error _ => .error error

/-- The pages of the segment. -/
def toPages (table : StringTable) : Paged UInt8 :=
  Paged.ofArray table.data

end StringTable
end ScriptBytecode
