/-!
# Tables by address

A table has entries for some of the addresses from a base on, in an array with a place for every
address.
-/

namespace ScriptBytecode

/-- Entries for some of the addresses from `base` on. -/
structure AddressTable (α : Type) where
  base : Nat
  entries : Array (Option α)

namespace AddressTable

variable {α : Type}

/-- The entry of an address. -/
def get? (table : AddressTable α) (address : Nat) : Option α :=
  if table.base ≤ address then (table.entries[address - table.base]?).join else none

/-- Whether an address has an entry. -/
def contains (table : AddressTable α) (address : Nat) : Bool :=
  (table.get? address).isSome

/-- A table for the addresses from `base` to `last` without entries. -/
def empty (base last : Nat) : AddressTable α :=
  ⟨base, Array.replicate (last + 1 - base) none⟩

/-- Sets the entry of an address; an address without a place is left out. -/
def insert (table : AddressTable α) (address : Nat) (entry : α) : AddressTable α :=
  if table.base ≤ address then
    let ⟨base, entries⟩ := table
    ⟨base, entries.setIfInBounds (address - base) (some entry)⟩
  else table

@[simp] theorem get?_empty (base last address : Nat) :
    (empty base last : AddressTable α).get? address = none := by
  unfold get? empty
  split
  · simp only [Array.getElem?_replicate]
    split <;> rfl
  · rfl

@[simp] theorem base_insert (table : AddressTable α) (address : Nat) (entry : α) :
    (table.insert address entry).base = table.base := by
  unfold insert
  split <;> rfl

/-- An inserted entry is found at its address if the table has a place for it, and all other
entries stay. -/
theorem get?_insert (table : AddressTable α) (address other : Nat) (entry : α) :
    (table.insert address entry).get? other =
      if address = other ∧ table.base ≤ address ∧ address - table.base < table.entries.size then
        some entry
      else table.get? other := by
  unfold insert get?
  by_cases placed : table.base ≤ address
  · by_cases reached : table.base ≤ other
    · simp only [placed, reached, if_true, Array.getElem?_setIfInBounds]
      by_cases same : address = other
      · subst same
        by_cases inBounds : address - table.base < table.entries.size <;> simp [inBounds]
      · have apart : address - table.base ≠ other - table.base := by omega
        simp [same, apart]
    · have different : address ≠ other := by omega
      simp [placed, reached, different]
  · simp [placed]

/-- A table for the addresses from `base` to `last` with the given entries. -/
def ofList (base last : Nat) (entries : List (Nat × α)) : AddressTable α :=
  entries.foldl (fun table (address, entry) => table.insert address entry) (empty base last)

end AddressTable

/-- A set of addresses. -/
abbrev AddressSet := AddressTable Unit

/-- The addresses of a list that lie from `base` to `last`. -/
def AddressSet.ofList (base last : Nat) (addresses : List Nat) : AddressSet :=
  AddressTable.ofList base last (addresses.map fun address => (address, ()))

end ScriptBytecode
