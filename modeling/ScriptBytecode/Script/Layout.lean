import ScriptBytecode.Script.Basic
import ScriptBytecode.Script.Header

/-!
# The layout of a container

Writing a container begins with a position for every block.  Blocks follow each other in a fixed
order, each at a multiple of sixteen; empty arrays and tables get no block.
-/

namespace ScriptBytecode

/-- The positions of the blocks, as offsets in the system segment. -/
structure Layout where
  codeTable : Option Nat
  codePages : List Nat
  statics : Option Nat
  globalsTable : Option Nat
  globalsPages : List Nat
  natives : Option Nat
  name : Nat
  stringTable : Option Nat
  stringPages : List Nat
  globalBlockHashes : Option Nat
  /-- The size of the whole segment. -/
  length : Nat
deriving DecidableEq, Repr

namespace Layout

/-- Blocks stand at multiples of this. -/
def alignment : Nat := 16

/-- The first position from a given one on at which a block can stand. -/
def align (position : Nat) : Nat :=
  (position + (alignment - 1)) / alignment * alignment

theorem le_align (position : Nat) : position ≤ align position := by
  unfold align alignment
  omega

theorem align_lt (position : Nat) : align position < position + alignment := by
  unfold align alignment
  omega

theorem alignment_dvd_align (position : Nat) : alignment ∣ align position :=
  Nat.dvd_mul_left alignment _

/-- Places a block, which may be empty: its position and the one after it. -/
def place (position size : Nat) : Nat × Nat :=
  (align position, align position + size)

/-- Places a block unless it is empty. -/
def placeNonempty (position size : Nat) : Option Nat × Nat :=
  if 0 < size then
    let (start, stop) := place position size
    (some start, stop)
  else (none, position)

/-- Places pages of the given sizes, which may be empty. -/
def placePages : (position : Nat) → (sizes : List Nat) → List Nat × Nat
  | position, [] => ([], position)
  | position, size :: rest =>
    let (start, position) := place position size
    let (starts, position) := placePages position rest
    (start :: starts, position)

/-- Places the table of pointers to some pages, then the pages. -/
def placeTable (position : Nat) (sizes : List Nat) : Option Nat × List Nat × Nat :=
  let (table, position) := placeNonempty position (8 * sizes.length)
  let (pages, position) := placePages position sizes
  (table, pages, position)

end Layout

/-- The layout of a script's container. -/
def Script.layout (script : Script) : Layout :=
  let codeSizes := script.codePages.pages.toList.map Array.size
  let globalsSizes := script.globalsPages.pages.toList.map fun page => 8 * page.size
  let stringSizes := script.stringPages.pages.toList.map Array.size
  let (_, position) := Layout.place 0 Header.length
  let (codeTable, codePages, position) := Layout.placeTable position codeSizes
  let (statics, position) := Layout.placeNonempty position (8 * script.statics.size)
  let (globalsTable, globalsPages, position) := Layout.placeTable position globalsSizes
  let (natives, position) := Layout.placeNonempty position (8 * script.natives.size)
  let (name, position) := Layout.place position ((Utf8.encode script.name).size + 1)
  let (stringTable, stringPages, position) := Layout.placeTable position stringSizes
  let (globalBlockHashes, position) :=
    Layout.placeNonempty position (8 * script.globalBlockHashes.size)
  { codeTable, codePages, statics, globalsTable, globalsPages, natives, name, stringTable
    stringPages, globalBlockHashes, length := position }

end ScriptBytecode
