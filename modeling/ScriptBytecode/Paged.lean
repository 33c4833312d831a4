import ScriptBytecode.Bytes

/-!
# Paged arrays

Code, strings and globals are stored in pages of `pageLength` elements; only the last page may hold
fewer.  `Paged.ofArray` divides an array into pages and `Paged.flatten` joins them again.
-/

namespace ScriptBytecode

/-- Capacity of a page, in elements. -/
def pageLength : Nat := 0x4000

/-- Number of pages that `length` elements take. -/
def pageCount (length : Nat) : Nat :=
  (length + pageLength - 1) / pageLength

/-- Number of elements of a page, out of `count` pages with `length` elements in all. -/
def pageSize (index count length : Nat) : Nat :=
  if index + 1 = count then length - index * pageLength else pageLength

/-- An array in pages. -/
structure Paged (α : Type) where
  pages : Array (Array α)
deriving DecidableEq, Repr

namespace Paged

variable {α : Type}

/-- No pages. -/
def empty : Paged α := ⟨#[]⟩

/-- Divides an array into pages. -/
def ofArray (elements : Array α) : Paged α :=
  ⟨(Array.range (pageCount elements.size)).map fun index =>
    elements.extract (index * pageLength) ((index + 1) * pageLength)⟩

/-- Joins the pages. -/
def flatten (paged : Paged α) : Array α :=
  paged.pages.flatten

/-- Number of elements over all pages. -/
def length (paged : Paged α) : Nat :=
  paged.pages.foldl (fun total page => total + page.size) 0

/-- The element at an index: the page is found by the full pages before it. -/
def get? (paged : Paged α) (index : Nat) : Option α :=
  paged.pages[index / pageLength]?.bind fun page => page[index % pageLength]?

/-- Whether every page but the last is full and the last one is not empty. -/
def Canonical (paged : Paged α) : Prop :=
  ∀ index, ∀ page, paged.pages[index]? = some page →
    if index + 1 = paged.pages.size then 0 < page.size ∧ page.size ≤ pageLength
    else page.size = pageLength

end Paged

/-- The integer in the low 32 bits of a static or global slot. -/
def slotInt (slot : UInt64) : Int :=
  slot.toUInt32.toInt32.toInt

/-- A slot that holds an integer. -/
def slotOfInt (value : Int32) : UInt64 :=
  value.toUInt32.toUInt64

end ScriptBytecode
