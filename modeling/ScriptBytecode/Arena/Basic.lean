import ScriptBytecode.Statement.Basic

/-!
# The instruction arena

The instructions of a function are kept in slots, and handles to them stay valid while other
instructions are removed.  A removed instruction leaves its slot dead, with a new generation, and
is unlinked from its live neighbours; `Arena.compact` takes dead slots out of the order and frees
them for later instructions.  Labels stand for the instruction they were placed before and move
on to the next live one when it is removed.
-/

namespace ScriptBytecode

/-- A slot and the generation of the instruction that was put there. -/
structure Handle where
  index : Nat
  generation : UInt32
deriving DecidableEq, Repr

/-- An instruction in the arena, with the labels that stand for it. -/
structure Entry where
  bytes : Bytes
  references : List Reference := []
  labels : List String := []
deriving DecidableEq, Repr

/-- The opcode of the first byte, if it is one. -/
def opcodeOf? (bytes : Bytes) : Option Opcode :=
  bytes[0]?.bind Opcode.ofByte?

/-- A place for an instruction.  A dead slot keeps the links it had when its instruction was
removed. -/
structure Slot where
  generation : UInt32
  entry : Option Entry
  previous : Option Nat
  next : Option Nat
deriving DecidableEq, Repr

/-- The instructions of a function. -/
structure Arena where
  slots : Array Slot := #[]
  /-- Slot indices in program order, with those of dead slots until compaction. -/
  order : Array Nat := #[]
  /-- Slots to be used again, the next one first. -/
  free : List Nat := []
  /-- The last live slot. -/
  tail : Option Nat := none
  /-- Labels for the next instruction. -/
  pending : List String := []
  /-- Labels after the last instruction. -/
  trailing : List String := []
deriving DecidableEq, Repr

namespace Arena

/-- Appends an instruction; pending labels come after its own ones. -/
def push : Arena → Entry → Handle × Arena
  | ⟨slots, order, free, tail, pending, trailing⟩, entry =>
    let entry := { entry with labels := entry.labels ++ pending }
    let slot (generation : UInt32) : Slot := ⟨generation, some entry, tail, none⟩
    let (handle, slots, free) : Handle × Array Slot × List Nat :=
      match free with
      | index :: rest =>
        let generation := (slots[index]?.map Slot.generation).getD 0
        (⟨index, generation⟩, slots.setIfInBounds index (slot generation), rest)
      | [] => (⟨slots.size, 0⟩, slots.push (slot 0), [])
    let slots :=
      match tail with
      | some last => slots.modify last fun slot => { slot with next := some handle.index }
      | none => slots
    (handle, ⟨slots, order.push handle.index, free, some handle.index, [], trailing⟩)

/-- Places a label before the next instruction. -/
def addLabel (arena : Arena) (label : String) : Arena :=
  { arena with pending := arena.pending ++ [label] }

/-- Labels that are still pending come to stand after the last instruction. -/
def close (arena : Arena) : Arena :=
  { arena with trailing := arena.trailing ++ arena.pending, pending := [] }

/-- The live slot of a handle. -/
def slot? (arena : Arena) (handle : Handle) : Option (Slot × Entry) := do
  let slot ← arena.slots[handle.index]?
  if slot.generation = handle.generation then
    let entry ← slot.entry
    return (slot, entry)
  else none

/-- The instruction of a handle, unless it was removed. -/
def get? (arena : Arena) (handle : Handle) : Option Entry :=
  (arena.slot? handle).map Prod.snd

/-- Changes the instruction of a handle, unless it was removed. -/
def modify (arena : Arena) (handle : Handle) (change : Entry → Entry) : Arena :=
  { arena with
    slots := arena.slots.modify handle.index fun slot =>
      if slot.generation = handle.generation then { slot with entry := slot.entry.map change }
      else slot }

/-- Removes an instruction and answers it without its labels, which move to the next live
instruction or after the last one. -/
def remove (arena : Arena) (handle : Handle) : Option Entry × Arena :=
  match arena.slot? handle with
  | none => (none, arena)
  | some (slot, entry) =>
    let dead := { slot with generation := slot.generation + 1, entry := none }
    let slots := arena.slots.setIfInBounds handle.index dead
    let slots :=
      match slot.previous with
      | some previous => slots.modify previous fun before => { before with next := slot.next }
      | none => slots
    let removed := some { entry with labels := [] }
    match slot.next with
    | some next =>
      let slots := slots.modify next fun after =>
        { after with
          previous := slot.previous
          entry := after.entry.map fun follower =>
            { follower with labels := entry.labels ++ follower.labels } }
      (removed, { arena with slots })
    | none =>
      (removed,
        { arena with slots, tail := slot.previous, trailing := entry.labels ++ arena.trailing })

/-- Number of positions of the order, those of dead slots included. -/
def positions (arena : Arena) : Nat :=
  arena.order.size

/-- The handle of a slot, if it is live. -/
def liveSlot? (arena : Arena) (index : Nat) : Option Handle := do
  let slot ← arena.slots[index]?
  let _ ← slot.entry
  return ⟨index, slot.generation⟩

/-- The live instruction at a position of the order. -/
def liveAt? (arena : Arena) (position : Nat) : Option Handle :=
  arena.order[position]?.bind arena.liveSlot?

/-- Follows the links from a slot to the first live one, in at most `steps` steps. -/
def followLinks (arena : Arena) : (steps index : Nat) → Option Handle
  | 0, _ => none
  | steps + 1, index =>
    match arena.slots[index]? with
    | none => none
    | some slot =>
      if slot.entry.isSome then some ⟨index, slot.generation⟩
      else
        match slot.next with
        | some next => followLinks arena steps next
        | none => none

/-- The live instruction that the links from a position lead to. -/
def nextLive? (arena : Arena) (position : Nat) : Option Handle := do
  let index ← arena.order[position]?
  let slot ← arena.slots[index]?
  let next ← slot.next
  arena.followLinks arena.slots.size next

/-- The handles of the live instructions, in program order. -/
def handles (arena : Arena) : Array Handle :=
  arena.order.filterMap arena.liveSlot?

/-- The live instructions, in program order. -/
def entries (arena : Arena) : Array Entry :=
  arena.order.filterMap fun index => arena.slots[index]?.bind Slot.entry

/-- Whether a label was placed. -/
def hasLabel (arena : Arena) (label : String) : Bool :=
  arena.pending.contains label || arena.trailing.contains label ||
    arena.entries.any fun entry => entry.labels.contains label

/-- The live instructions' bytes, in program order. -/
def code (arena : Arena) : Bytes :=
  arena.entries.foldl (fun code entry => code ++ entry.bytes) #[]

/-- Takes dead slots out of the order and frees them. -/
def compact (arena : Arena) : Arena :=
  let isLive (index : Nat) : Bool := (arena.liveSlot? index).isSome
  let dead := arena.order.filter fun index => !isLive index
  { arena with
    order := arena.order.filter isLive
    free := dead.foldl (fun free index => index :: free) arena.free }

end Arena
end ScriptBytecode
