import Mathlib.Algebra.Group.Nat.Defs
import Mathlib.Data.List.Induction
import Mathlib.Data.List.TakeWhile
import ScriptBytecode.Proofs.ArenaFusion

/-!
# Sessions on an arena

`Arena.Session` runs calls on an arena and writes a ledger beside it.  The ledger knows no slots: it
lists the handles that were given out, those whose instruction was removed, and the instructions
that are left, in the order of their pushes.  A slot has the generation that counts the removals
from it, so a slot that is used again never gives out a handle a second time, and the arena shows
what the ledger says.
-/

namespace ScriptBytecode
namespace Arena

variable {arena : Arena} {handle : Handle}

/-- A call that may change an arena. -/
inductive Call
  | push (entry : Entry)
  | addLabel (label : String)
  | close
  | remove (handle : Handle)
  | modify (handle : Handle) (change : Entry → Entry)
  | compact

/-- What a session did, without the slots. -/
structure Ledger where
  /-- The handles that pushes answered, in the order of the pushes. -/
  pushed : List Handle := []
  /-- The handles whose instruction was removed. -/
  removed : List Handle := []
  /-- The instructions that were pushed and not removed. -/
  live : List Live := []
  /-- Labels for the next instruction. -/
  pending : List String := []
  /-- Labels after the last instruction. -/
  trailing : List String := []

namespace Ledger

def push (ledger : Ledger) (handle : Handle) (entry : Entry) : Ledger :=
  { ledger with
    pushed := ledger.pushed ++ [handle]
    live := ledger.live ++ [(handle, { entry with labels := entry.labels ++ ledger.pending })]
    pending := [] }

def addLabel (ledger : Ledger) (label : String) : Ledger :=
  { ledger with pending := ledger.pending ++ [label] }

def close (ledger : Ledger) : Ledger :=
  { ledger with trailing := ledger.trailing ++ ledger.pending, pending := [] }

/-- Takes an instruction out.  Its labels move to the one after it, or after the last one. -/
def remove (ledger : Ledger) (handle : Handle) : Ledger :=
  match ledger.live.dropWhile (·.1 ≠ handle) with
  | [] => ledger
  | (_, entry) :: after =>
    { ledger with
      removed := ledger.removed ++ [handle]
      live := ledger.live.takeWhile (·.1 ≠ handle) ++ prependLabels entry.labels after
      trailing := if after = [] then entry.labels ++ ledger.trailing else ledger.trailing }

/-- An instruction with its content changed if it has the handle. -/
def modifyUnder (handle : Handle) (change : Entry → Entry) : Live → Live
  | (other, entry) => (other, if other = handle then change entry else entry)

def modify (ledger : Ledger) (handle : Handle) (change : Entry → Entry) : Ledger :=
  { ledger with live := ledger.live.map (modifyUnder handle change) }

/-- How often an instruction was removed from a slot. -/
def removals (ledger : Ledger) (index : Nat) : Nat :=
  ledger.removed.countP (·.index = index)

/-- The handles of the instructions that are left. -/
def handles (ledger : Ledger) : List Handle :=
  ledger.live.map Prod.fst

end Ledger

/-- An arena and the ledger of the calls made on it. -/
structure Session where
  arena : Arena := {}
  ledger : Ledger := {}

namespace Session

/-- The ledger takes from the arena only the handles that pushes answer. -/
def perform (session : Session) : Call → Session
  | .push entry =>
    let (handle, arena) := session.arena.push entry
    ⟨arena, session.ledger.push handle entry⟩
  | .addLabel label => ⟨session.arena.addLabel label, session.ledger.addLabel label⟩
  | .close => ⟨session.arena.close, session.ledger.close⟩
  | .remove handle => ⟨(session.arena.remove handle).2, session.ledger.remove handle⟩
  | .modify handle change =>
    ⟨session.arena.modify handle change, session.ledger.modify handle change⟩
  | .compact => ⟨session.arena.compact, session.ledger⟩

/-- The session that makes the calls on an arena without slots. -/
def run (calls : List Call) : Session :=
  calls.foldl perform {}

end Session

/-! ## Slots and their generations -/

@[simp] theorem map_fst_prependLabels (labels : List String) (live : List Live) :
    (prependLabels labels live).map Prod.fst = live.map Prod.fst := by
  cases live <;> rfl

/-- The generation that a slot gives to the instruction put into it, 0 for a slot that is yet to
be made. -/
def generationAt (slots : Array Slot) (index : Nat) : UInt32 :=
  (slots[index]?.map Slot.generation).getD 0

/-- The handle of a new instruction has the generation of its slot. -/
theorem generation_push (arena : Arena) (entry : Entry) :
    (arena.push entry).1.generation = generationAt arena.slots (arena.push entry).1.index := by
  obtain ⟨slots, order, free, tail, pending, trailing⟩ := arena
  cases free with
  | nil => simp [Arena.push, generationAt]
  | cons index rest => rfl

theorem slots_modify_eq
    (arena : Arena)
    (handle : Handle)
    (change : Entry → Entry)
    (index : Nat) :
    (arena.modify handle change).slots[index]? =
      arena.slots[index]?.map fun slot =>
        if index = handle.index ∧ slot.generation = handle.generation then
          { slot with entry := slot.entry.map change }
        else slot := by
  by_cases here : index = handle.index
  · subst here
    simp [Arena.modify, Array.getElem?_modify]
  · simp [Arena.modify, Array.getElem?_modify, here, Ne.symm here]

theorem generationAt_modify
    (arena : Arena)
    (handle : Handle)
    (change : Entry → Entry)
    (index : Nat) :
    generationAt (arena.modify handle change).slots index = generationAt arena.slots index := by
  unfold generationAt
  rw [slots_modify_eq]
  cases arena.slots[index]? with
  | none => rfl
  | some slot =>
      simp only [Option.map_some, Option.getD_some]
      split <;> rfl

theorem isLive_modify
    (arena : Arena)
    (handle : Handle)
    (change : Entry → Entry)
    (index : Nat) :
    isLive (arena.modify handle change).slots index = isLive arena.slots index := by
  unfold isLive
  rw [slots_modify_eq]
  cases arena.slots[index]? with
  | none => rfl
  | some slot =>
      simp only [Option.map_some, Option.bind_some]
      split <;> simp

/-- A handle without an instruction changes nothing when it is removed. -/
theorem remove_of_get?_eq_none
    (dead : arena.get? handle = none) :
    arena.remove handle = (none, arena) := by
  have noSlot : arena.slot? handle = none := Option.map_eq_none_iff.mp dead
  simp [Arena.remove, noSlot]

/-- A handle without an instruction changes nothing when it is written to. -/
theorem modify_of_get?_eq_none
    (dead : arena.get? handle = none)
    (change : Entry → Entry) :
    arena.modify handle change = arena := by
  have sameSlots : (arena.modify handle change).slots = arena.slots := by
    apply Array.ext_getElem?
    intro index
    rw [slots_modify_eq]
    cases found : arena.slots[index]? with
    | none => rfl
    | some slot =>
        rw [Option.map_some, Option.some_inj]
        split
        · rename_i isHere
          obtain ⟨rfl, sameGeneration⟩ := isHere
          simp only [get?, slot?, found, Option.bind_eq_bind, Option.bind_some, sameGeneration,
            if_true] at dead
          cases isEntry : slot.entry with
          | none =>
              rw [Option.map_none, ← isEntry]
          | some entry => simp [isEntry] at dead
        · rfl
  calc arena.modify handle change
      = { arena with slots := (arena.modify handle change).slots } := rfl
    _ = arena := by rw [sameSlots]

theorem pending_remove (arena : Arena) (handle : Handle) :
    (arena.remove handle).2.pending = arena.pending := by
  unfold Arena.remove
  cases arena.slot? handle with
  | none => rfl
  | some found => cases next : found.1.next <;> simp [next]

/-- A removal answers the instruction without its labels. -/
theorem answer_remove (arena : Arena) (handle : Handle) :
    (arena.remove handle).1 = (arena.get? handle).map fun entry => { entry with labels := [] } := by
  unfold Arena.remove get?
  cases arena.slot? handle with
  | none => rfl
  | some found => cases next : found.1.next <;> simp [next]

/-- What is found for the elements of a list is found at its positions. -/
theorem filterMap_range_getElem?
    {α β : Type}
    (values : List α)
    (found : α → Option β) :
    (List.range values.length).filterMap (fun position => values[position]?.bind found) =
      values.filterMap found := by
  induction values using List.reverseRecOn with
  | nil => rfl
  | append_singleton init last ih =>
      have earlier : (List.range init.length).filterMap
          (fun position => (init ++ [last])[position]?.bind found) = init.filterMap found := by
        rw [← ih]
        apply List.filterMap_congr
        intro position member
        rw [List.getElem?_append_left (List.mem_range.mp member)]
      rw [List.length_append, List.length_singleton, List.range_succ, List.filterMap_append,
        List.filterMap_append, earlier]
      simp [List.filterMap_cons]

namespace Represents

variable {arena : Arena} {live : List Live} {handle : Handle} {entry : Entry}

/-- The live instructions do not depend on the labels that stand for none of them. -/
theorem relabel
    (represents : arena.Represents live)
    (pending trailing : List String) :
    Represents { arena with pending, trailing } live :=
  ⟨represents.chain, represents.order, represents.nodup, represents.inRange, represents.tail,
    represents.free, represents.freeNodup⟩

theorem generationAt_push
    (represents : arena.Represents live)
    (entry : Entry)
    (index : Nat) :
    generationAt (arena.push entry).2.slots index = generationAt arena.slots index := by
  have sameGeneration := generation_push arena entry
  obtain ⟨handle, slots, free, pushed, _, _, _, _, _, _, slot⟩ := represents.push_eq entry
  rw [pushed] at sameGeneration ⊢
  by_cases isNew : index = handle.index
  · subst isNew
    rw [← sameGeneration]
    simp [generationAt, slot]
  · simp only [generationAt, slot, if_neg isNew]
    split
    · cases arena.slots[index]? <;> rfl
    · rfl

theorem isLive_push
    (represents : arena.Represents live)
    (entry : Entry)
    {index : Nat}
    (alive : isLive (arena.push entry).2.slots index = true) :
    index = (arena.push entry).1.index ∨ isLive arena.slots index = true := by
  obtain ⟨handle, slots, free, pushed, _, _, _, _, _, _, slot⟩ := represents.push_eq entry
  rw [pushed] at alive ⊢
  by_cases isNew : index = handle.index
  · exact .inl isNew
  · right
    simp only [isLive, slot, if_neg isNew] at alive ⊢
    split at alive
    · cases found : arena.slots[index]? <;> simp_all
    · exact alive

/-- An instruction is put into a slot that holds none. -/
theorem isLive_index_push
    (represents : arena.Represents live)
    (entry : Entry) :
    isLive arena.slots (arena.push entry).1.index = false := by
  obtain ⟨handle, _, _, pushed, _, _, dead, _⟩ := represents.push_eq entry
  rw [pushed]
  exact dead

theorem generationAt_remove
    {before after : List Live}
    (represents : arena.Represents (before ++ (handle, entry) :: after))
    (index : Nat) :
    generationAt (arena.remove handle).2.slots index =
      if index = handle.index then handle.generation + 1 else generationAt arena.slots index := by
  unfold generationAt
  rw [represents.getElem?_slots_remove]
  split
  · rfl
  · split
    · cases arena.slots[index]? <;> rfl
    · split
      · cases arena.slots[index]? <;> rfl
      · rfl

variable (represents : arena.Represents live)

include represents

/-- A live instruction has the generation of its slot. -/
theorem generationAt_of_mem
    {item : Live}
    (member : item ∈ live) :
    generationAt arena.slots item.1.index = item.1.generation := by
  obtain ⟨_, _, slot⟩ := represents.chain.slot_eq member
  simp [generationAt, slot]

/-- The handles of the live instructions, in program order. -/
theorem handles_eq :
    arena.handles = (live.map Prod.fst).toArray := by
  refine represents.filterMap_order (fun index dead => ?_) (fun item member => ?_)
  · rw [← isSome_liveSlot?] at dead
    exact Option.not_isSome_iff_eq_none.mp (by simp [dead])
  · obtain ⟨_, _, slot⟩ := represents.chain.slot_eq member
    simp [liveSlot?, slot]

/-- The positions of the order lead to the live instructions, in program order. -/
theorem filterMap_liveAt? :
    (List.range arena.positions).filterMap arena.liveAt? = live.map Prod.fst := by
  have positionwise := filterMap_range_getElem? arena.order.toList arena.liveSlot?
  simp only [Array.length_toList, Array.getElem?_toList] at positionwise
  calc (List.range arena.positions).filterMap arena.liveAt?
      = arena.order.toList.filterMap arena.liveSlot? := positionwise
    _ = arena.handles.toList := Array.toList_filterMap.symm
    _ = live.map Prod.fst := by rw [represents.handles_eq]

/-- The bytes of the live instructions, in program order. -/
theorem code_eq :
    arena.code.toList = live.flatMap fun item => item.2.bytes.toList := by
  have appended : ∀ (entries : List Entry) (code : Bytes),
      (entries.foldl (fun code entry => code ++ entry.bytes) code).toList =
        code.toList ++ entries.flatMap (·.bytes.toList) := by
    intro entries
    induction entries with
    | nil => simp
    | cons entry rest ih =>
        intro code
        rw [List.foldl_cons, ih, List.flatMap_cons, Array.toList_append,
          List.append_assoc]
  rw [code, represents.entries_eq, List.foldl_toArray, appended, List.flatMap_map]
  rfl

/-- If every slot that holds an instruction is that of a listed one, the instruction of a handle is
the one that is listed under it. -/
theorem get?_eq_some_iff
    (complete : ∀ index, isLive arena.slots index = true → index ∈ live.map (·.1.index)) :
    arena.get? handle = some entry ↔ (handle, entry) ∈ live := by
  constructor
  · intro found
    obtain ⟨⟨slot, _⟩, isSlot, rfl⟩ := Option.map_eq_some_iff.mp found
    simp only [slot?, Option.bind_eq_bind, Option.bind_eq_some_iff] at isSlot
    obtain ⟨slot, isSlot, isEntry⟩ := isSlot
    split at isEntry
    · rename_i sameGeneration
      obtain ⟨entry, isEntry, isPair⟩ := Option.bind_eq_some_iff.mp isEntry
      cases isPair
      have alive : isLive arena.slots handle.index = true := by
        simp [isLive, isSlot, isEntry]
      obtain ⟨item, member, sameIndex⟩ := List.mem_map.mp (complete _ alive)
      obtain ⟨_, _, itemSlot⟩ := represents.chain.slot_eq member
      rw [sameIndex, isSlot] at itemSlot
      cases itemSlot
      cases isEntry
      have sameHandle : item.1 = handle := by
        cases handle
        cases item with
        | mk other _ =>
            cases other
            simp_all
      rwa [← sameHandle]
    · cases isEntry
  · intro member
    obtain ⟨before, after, rfl⟩ := List.append_of_mem member
    exact represents.get?_eq

end Represents

/-! ## What one call keeps -/

namespace Ledger

variable {ledger : Ledger} {handle : Handle}

theorem remove_of_not_mem (absent : handle ∉ ledger.handles) : ledger.remove handle = ledger := by
  have noneLeft : ledger.live.dropWhile (·.1 ≠ handle) = [] := by
    rw [List.dropWhile_eq_nil_iff]
    intro item member
    have other : item.1 ≠ handle := fun same => absent (same ▸ List.mem_map_of_mem member)
    simpa using other
  simp only [remove, noneLeft]

theorem remove_of_eq
    {before after : List Live} {entry : Entry}
    (isLive : ledger.live = before ++ (handle, entry) :: after)
    (first : ∀ item ∈ before, item.1 ≠ handle) :
    ledger.remove handle =
      { ledger with
        removed := ledger.removed ++ [handle]
        live := before ++ prependLabels entry.labels after
        trailing := if after = [] then entry.labels ++ ledger.trailing else ledger.trailing } := by
  have passed : ∀ item ∈ before, decide (item.1 ≠ handle) = true := by simpa using first
  have kept : ledger.live.takeWhile (·.1 ≠ handle) = before := by
    rw [isLive, List.takeWhile_append_of_pos passed, List.takeWhile_cons_of_neg (by simp),
      List.append_nil]
  have left : ledger.live.dropWhile (·.1 ≠ handle) = (handle, entry) :: after := by
    rw [isLive, List.dropWhile_append_of_pos passed, List.dropWhile_cons_of_neg (by simp)]
  simp only [remove, left, kept]

theorem handles_modify (ledger : Ledger) (handle : Handle) (change : Entry → Entry) :
    (ledger.modify handle change).handles = ledger.handles := by
  simp [handles, modify, modifyUnder, Function.comp_def]

/-- Instructions with other handles are not changed. -/
theorem map_modifyUnder_of_ne
    {items : List Live}
    (change : Entry → Entry)
    (others : ∀ item ∈ items, item.1 ≠ handle) :
    items.map (modifyUnder handle change) = items := by
  conv_rhs => rw [← List.map_id items]
  apply List.map_congr_left
  rintro ⟨other, entry⟩ member
  rw [modifyUnder, if_neg (others _ member), id]

/-- Removals are counted up. -/
theorem removals_le_remove (ledger : Ledger) (handle : Handle) (index : Nat) :
    ledger.removals index ≤ (ledger.remove handle).removals index := by
  unfold remove
  split
  · exact Nat.le_refl _
  · simp [removals, List.countP_append]

end Ledger

namespace Session

variable {session : Session}

/-- The arena holds what the ledger lists, and the generation of a slot counts the removals from
it. -/
structure Agrees (session : Session) : Prop where
  represents : session.arena.Represents session.ledger.live
  pending : session.arena.pending = session.ledger.pending
  trailing : session.arena.trailing = session.ledger.trailing
  /-- Every slot that holds an instruction is that of a listed one. -/
  complete : ∀ index, isLive session.arena.slots index = true →
    index ∈ session.ledger.live.map (·.1.index)
  generation : ∀ index,
    generationAt session.arena.slots index = UInt32.ofNat (session.ledger.removals index)
  /-- The slot of a removed instruction has gone on to a later generation. -/
  stale : ∀ handle ∈ session.ledger.removed,
    handle.generation.toNat < session.ledger.removals handle.index
  handles : session.ledger.handles =
    session.ledger.pushed.filter fun handle => handle ∉ session.ledger.removed
  nodup : session.ledger.pushed.Nodup

theorem agrees_empty : Agrees {} where
  represents := represents_empty
  pending := rfl
  trailing := rfl
  complete := by simp [isLive]
  generation := by simp [generationAt, Ledger.removals]
  stale := by simp
  handles := rfl
  nodup := List.nodup_nil

namespace Agrees

variable {before after : List Live} {handle : Handle} {entry : Entry}

variable (agrees : session.Agrees)

include agrees

/-- The instruction of a handle is the one that the ledger lists under it. -/
theorem get?_eq_some_iff :
    session.arena.get? handle = some entry ↔ (handle, entry) ∈ session.ledger.live :=
  agrees.represents.get?_eq_some_iff agrees.complete

theorem get?_eq_none_iff :
    session.arena.get? handle = none ↔ handle ∉ session.ledger.handles := by
  rw [Option.eq_none_iff_forall_ne_some, Ledger.handles, List.mem_map]
  constructor
  · rintro noEntry ⟨⟨_, entry⟩, member, rfl⟩
    exact noEntry entry (agrees.get?_eq_some_iff.mpr member)
  · intro absent entry found
    exact absent ⟨_, agrees.get?_eq_some_iff.mp found, rfl⟩

/-- The generation of a slot is the number of removals from it. -/
theorem toNat_generationAt
    (few : ∀ index, session.ledger.removals index < 2 ^ 32)
    (index : Nat) :
    (generationAt session.arena.slots index).toNat = session.ledger.removals index := by
  rw [agrees.generation, UInt32.toNat_ofNat']
  exact Nat.mod_eq_of_lt (few index)

/-- A slot that is used again has left the generations of its earlier handles. -/
theorem push_not_mem_removed
    (few : ∀ index, session.ledger.removals index < 2 ^ 32)
    (entry : Entry) :
    (session.arena.push entry).1 ∉ session.ledger.removed := by
  intro wasRemoved
  have earlier := agrees.stale _ wasRemoved
  rw [generation_push, agrees.toNat_generationAt few] at earlier
  exact Nat.lt_irrefl _ earlier

/-- A push answers a handle that no push answered before. -/
theorem push_not_mem_pushed
    (few : ∀ index, session.ledger.removals index < 2 ^ 32)
    (entry : Entry) :
    (session.arena.push entry).1 ∉ session.ledger.pushed := by
  intro again
  have listed : (session.arena.push entry).1 ∈ session.ledger.handles := by
    rw [agrees.handles]
    simpa using ⟨again, agrees.push_not_mem_removed few entry⟩
  obtain ⟨item, member, sameHandle⟩ := List.mem_map.mp listed
  have dead := agrees.represents.isLive_index_push entry
  obtain ⟨_, _, slot⟩ := agrees.represents.chain.slot_eq member
  rw [← sameHandle, isLive, slot] at dead
  cases dead

theorem push
    (few : ∀ index, session.ledger.removals index < 2 ^ 32)
    (entry : Entry) :
    (session.perform (.push entry)).Agrees := by
  have isNew := agrees.push_not_mem_pushed few entry
  have notRemoved := agrees.push_not_mem_removed few entry
  obtain ⟨represents, pending, trailing⟩ := agrees.represents.push entry
  rw [agrees.pending] at represents
  refine ⟨represents, pending, trailing.trans agrees.trailing, ?_, ?_, agrees.stale, ?_, ?_⟩
  · intro index alive
    simp only [Session.perform, Ledger.push, List.map_append, List.mem_append]
    rcases agrees.represents.isLive_push entry alive with isIndex | wasAlive
    · right
      simpa using isIndex
    · exact .inl (agrees.complete index wasAlive)
  · intro index
    exact (agrees.represents.generationAt_push entry index).trans (agrees.generation index)
  · have isLast : [(session.arena.push entry).1].filter
        (fun handle => handle ∉ session.ledger.removed) = [(session.arena.push entry).1] := by
      simp [notRemoved]
    calc (session.perform (.push entry)).ledger.handles
        = session.ledger.handles ++ [(session.arena.push entry).1] := List.map_append
      _ = (session.ledger.pushed ++ [(session.arena.push entry).1]).filter
            (fun handle => handle ∉ session.ledger.removed) := by
          rw [agrees.handles, List.filter_append, isLast]
  · simp only [Session.perform, Ledger.push]
    exact List.nodup_append.mpr ⟨agrees.nodup, List.nodup_singleton _, by
      rintro handle member other isOther rfl
      exact isNew (List.mem_singleton.mp isOther ▸ member)⟩

theorem index_ne_of_divided
    (divided : session.ledger.live = before ++ (handle, entry) :: after) :
    ∀ item ∈ before ++ after, item.1 ≠ handle := by
  have represents := agrees.represents
  rw [divided] at represents
  rintro item member rfl
  rcases List.mem_append.mp member with inBefore | inAfter
  · exact represents.index_ne_of_mem_before item inBefore rfl
  · exact represents.index_ne_of_mem_after item inAfter rfl

/-- The listed handles but one are those that its removal leaves of the pushed ones. -/
theorem handles_of_divided
    (divided : session.ledger.live = before ++ (handle, entry) :: after) :
    (before ++ after).map Prod.fst =
      session.ledger.pushed.filter (· ∉ session.ledger.removed ++ [handle]) := by
  have kept : ((before ++ after).map Prod.fst).filter (· ≠ handle) =
      (before ++ after).map Prod.fst := by
    rw [List.filter_eq_self]
    intro other member
    obtain ⟨item, inItems, rfl⟩ := List.mem_map.mp member
    simpa using agrees.index_ne_of_divided divided item inItems
  have later : session.ledger.pushed.filter (· ∉ session.ledger.removed ++ [handle]) =
      session.ledger.handles.filter (· ≠ handle) := by
    rw [agrees.handles, List.filter_filter]
    apply List.filter_congr
    intro other _
    by_cases same : other = handle <;> simp [same]
  calc (before ++ after).map Prod.fst
      = ((before ++ after).map Prod.fst).filter (· ≠ handle) := kept.symm
    _ = session.ledger.handles.filter (· ≠ handle) := by
        simp [Ledger.handles, divided]
    _ = session.ledger.pushed.filter (· ∉ session.ledger.removed ++ [handle]) := later.symm

/-- The removal of a listed instruction. -/
theorem remove_listed
    (few : ∀ index, session.ledger.removals index < 2 ^ 32)
    (divided : session.ledger.live = before ++ (handle, entry) :: after) :
    (session.perform (.remove handle)).Agrees := by
  have represents := agrees.represents
  rw [divided] at represents
  have generation : UInt32.ofNat (session.ledger.removals handle.index) = handle.generation := by
    have member : (handle, entry) ∈ before ++ (handle, entry) :: after := by simp
    rw [← agrees.generation]
    exact represents.generationAt_of_mem member
  have elsewhere := agrees.index_ne_of_divided divided
  have removals : ∀ index, (session.ledger.removed ++ [handle]).countP (·.index = index) =
      session.ledger.removals index + if handle.index = index then 1 else 0 := by
    intro index
    simp [Ledger.removals, List.countP_append, List.countP_cons]
  simp only [Session.perform, Ledger.remove_of_eq divided fun item member =>
    elsewhere item (List.mem_append_left _ member)]
  refine ⟨represents.remove, ?_, ?_, ?_, ?_, ?_, ?_, agrees.nodup⟩
  · rw [← agrees.pending]
    exact pending_remove _ _
  · rw [represents.trailing_remove, agrees.trailing]
  · intro index alive
    rw [represents.isLive_remove, Bool.and_eq_true, decide_eq_true_eq] at alive
    have listed := agrees.complete index alive.1
    rw [divided, List.map_append, List.map_cons, List.mem_append, List.mem_cons] at listed
    rw [List.map_append, map_index_prependLabels, List.mem_append]
    rcases listed with inBefore | isIndex | inAfter
    · exact .inl inBefore
    · exact absurd isIndex alive.2
    · exact .inr inAfter
  · intro index
    rw [represents.generationAt_remove, Ledger.removals, removals]
    by_cases here : index = handle.index
    · rw [if_pos here, if_pos here.symm, here, UInt32.ofNat_add, generation]
      rfl
    · rw [if_neg here, if_neg (Ne.symm here), agrees.generation, Nat.add_zero]
  · intro other member
    rw [Ledger.removals, removals]
    rcases List.mem_append.mp member with earlier | isLast
    · exact Nat.lt_add_right _ (agrees.stale other earlier)
    · cases List.mem_singleton.mp isLast
      rw [if_pos rfl, ← generation, UInt32.toNat_ofNat', Nat.mod_eq_of_lt (few _)]
      exact Nat.lt_succ_self _
  · rw [← agrees.handles_of_divided divided, Ledger.handles, List.map_append, List.map_append,
      map_fst_prependLabels]

theorem remove
    (few : ∀ index, session.ledger.removals index < 2 ^ 32)
    (handle : Handle) :
    (session.perform (.remove handle)).Agrees := by
  by_cases listed : handle ∈ session.ledger.handles
  · obtain ⟨⟨_, entry⟩, member, rfl⟩ := List.mem_map.mp listed
    obtain ⟨before, after, divided⟩ := List.append_of_mem member
    exact agrees.remove_listed few divided
  · have dead := remove_of_get?_eq_none (agrees.get?_eq_none_iff.mpr listed)
    simp only [Session.perform, dead, Ledger.remove_of_not_mem listed]
    exact agrees

theorem modify
    (handle : Handle)
    (change : Entry → Entry) :
    (session.perform (.modify handle change)).Agrees := by
  have represents : (session.arena.modify handle change).Represents
      (session.ledger.modify handle change).live := by
    by_cases listed : handle ∈ session.ledger.handles
    · obtain ⟨⟨_, entry⟩, member, rfl⟩ := List.mem_map.mp listed
      obtain ⟨before, after, divided⟩ := List.append_of_mem member
      have represents := agrees.represents
      rw [divided] at represents
      have sameBefore := Ledger.map_modifyUnder_of_ne change
        (fun item inBefore same => represents.index_ne_of_mem_before item inBefore (by rw [same]))
      have sameAfter := Ledger.map_modifyUnder_of_ne change
        (fun item inAfter same => represents.index_ne_of_mem_after item inAfter (by rw [same]))
      rw [Ledger.modify, divided, List.map_append, List.map_cons, sameBefore, sameAfter,
        Ledger.modifyUnder, if_pos rfl]
      exact represents.modify change
    · have others : ∀ item ∈ session.ledger.live, item.1 ≠ handle := by
        rintro item member rfl
        exact listed (List.mem_map_of_mem member)
      rw [modify_of_get?_eq_none (agrees.get?_eq_none_iff.mpr listed), Ledger.modify,
        Ledger.map_modifyUnder_of_ne change others]
      exact agrees.represents
  refine { agrees with represents, complete := ?_, generation := ?_, handles := ?_ }
  · intro index alive
    have listed := agrees.complete index ((isLive_modify _ _ _ _).symm.trans alive)
    simpa [Session.perform, Ledger.modify, Ledger.modifyUnder, Function.comp_def] using listed
  · intro index
    exact (generationAt_modify _ _ _ _).trans (agrees.generation index)
  · exact (Ledger.handles_modify _ _ _).trans agrees.handles

/-- No call parts the arena from the ledger while the removals from each slot can be counted. -/
theorem perform
    (few : ∀ index, session.ledger.removals index < 2 ^ 32)
    (call : Call) :
    (session.perform call).Agrees := by
  cases call with
  | push entry => exact agrees.push few entry
  | addLabel label =>
      exact { agrees with
        represents := agrees.represents.relabel _ _
        pending := congrArg (· ++ [label]) agrees.pending }
  | close =>
      exact { agrees with
        represents := agrees.represents.relabel _ _
        pending := rfl
        trailing := congrArg₂ (· ++ ·) agrees.trailing agrees.pending }
  | remove handle => exact agrees.remove few handle
  | modify handle change => exact agrees.modify handle change
  | compact => exact { agrees with represents := agrees.represents.compact }

end Agrees

/-! ## What a session shows -/

theorem removals_le_perform (session : Session) (call : Call) (index : Nat) :
    session.ledger.removals index ≤ (session.perform call).ledger.removals index := by
  cases call with
  | remove handle => exact session.ledger.removals_le_remove handle index
  | push _ | addLabel _ | close | modify _ _ | compact => exact Nat.le_refl _

theorem agrees_run
    (calls : List Call)
    (few : ∀ index, (run calls).ledger.removals index < 2 ^ 32) :
    (run calls).Agrees := by
  induction calls using List.reverseRecOn with
  | nil => exact agrees_empty
  | append_singleton earlier call ih =>
      rw [run, List.foldl_append] at few ⊢
      have fewBefore : ∀ index, (run earlier).ledger.removals index < 2 ^ 32 := fun index =>
        Nat.lt_of_le_of_lt (removals_le_perform _ call index) (few index)
      exact (ih fewBefore).perform fewBefore call

/-- An arena seen through its calls is the list of instructions that a ledger gives. -/
structure Shows (arena : Arena) (ledger : Ledger) : Prop where
  /-- No handle is given out twice. -/
  pushed_nodup : ledger.pushed.Nodup
  /-- The instructions shown are those pushed and not removed, in the order of the pushes. -/
  handles_ledger : ledger.handles = ledger.pushed.filter fun handle => handle ∉ ledger.removed
  handles : arena.handles.toList = ledger.handles
  entries : arena.entries.toList = ledger.live.map Prod.snd
  size : arena.entries.size = ledger.handles.length
  code : arena.code.toList = ledger.live.flatMap fun item => item.2.bytes.toList
  liveAt? : (List.range arena.positions).filterMap arena.liveAt? = ledger.handles
  pending : arena.pending = ledger.pending
  trailing : arena.trailing = ledger.trailing
  /-- A handle has the instruction that was pushed under it, until it is removed. -/
  get? : ∀ handle entry, arena.get? handle = some entry ↔ (handle, entry) ∈ ledger.live
  isSome_get? : ∀ handle,
    (arena.get? handle).isSome ↔ handle ∈ ledger.pushed ∧ handle ∉ ledger.removed
  /-- A removal answers the instruction without its labels. -/
  remove : ∀ handle entry, (handle, entry) ∈ ledger.live →
    (arena.remove handle).1 = some { entry with labels := [] }
  /-- A handle without an instruction changes nothing. -/
  dead : ∀ handle, arena.get? handle = none →
    arena.remove handle = (none, arena) ∧ ∀ change, arena.modify handle change = arena
  order_nodup : arena.order.toList.Nodup
  free_nodup : arena.free.Nodup
  order_free : ∀ index ∈ arena.order, index ∉ arena.free

theorem Agrees.shows (agrees : session.Agrees) : Shows session.arena session.ledger where
  pushed_nodup := agrees.nodup
  handles_ledger := agrees.handles
  handles := by rw [agrees.represents.handles_eq]; rfl
  entries := by rw [agrees.represents.entries_eq]
  size := by rw [agrees.represents.entries_eq]; simp [Ledger.handles]
  code := agrees.represents.code_eq
  liveAt? := agrees.represents.filterMap_liveAt?
  pending := agrees.pending
  trailing := agrees.trailing
  get? := fun _ _ => agrees.get?_eq_some_iff
  isSome_get? := by
    intro handle
    rw [Option.isSome_iff_ne_none, ne_eq, agrees.get?_eq_none_iff, not_not, agrees.handles]
    simp
  remove := by
    intro handle entry member
    rw [answer_remove, agrees.get?_eq_some_iff.mpr member, Option.map_some]
  dead := fun _ noEntry => ⟨remove_of_get?_eq_none noEntry, modify_of_get?_eq_none noEntry⟩
  order_nodup := agrees.represents.nodup
  free_nodup := agrees.represents.freeNodup
  order_free := fun index inOrder isFree => (agrees.represents.free index isFree).2.2 inOrder

/-- The arena of a session is the list of the instructions pushed and not removed, with handles
that are never given out again, as long as no slot has its instruction removed 2 ^ 32 times.
Compaction changes nothing that can be seen but the positions. -/
theorem shows_run
    (calls : List Call)
    (few : ∀ index, (run calls).ledger.removals index < 2 ^ 32) :
    Shows (run calls).arena (run calls).ledger ∧
      Shows (run calls).arena.compact (run calls).ledger ∧
      (∀ handle, (run calls).arena.compact.get? handle = (run calls).arena.get? handle) ∧
      ∀ label, (run calls).arena.compact.hasLabel label = (run calls).arena.hasLabel label := by
  have agrees := agrees_run calls few
  have compacted := agrees.perform few .compact
  refine ⟨agrees.shows, compacted.shows, fun _ => rfl, ?_⟩
  intro label
  simp only [hasLabel]
  have sameEntries : (run calls).arena.compact.entries = (run calls).arena.entries := by
    rw [agrees.represents.entries_eq]
    exact compacted.represents.entries_eq
  rw [sameEntries]
  rfl

/-- A slot that is used again, with its first handle removed a second time. -/
theorem shows_run_reused :
    let calls : List Call := [.addLabel "start", .push ⟨#[0], [], []⟩, .push ⟨#[1], [], []⟩,
      .remove ⟨0, 0⟩, .compact, .push ⟨#[2], [], []⟩, .remove ⟨0, 0⟩,
      .modify ⟨0, 1⟩ fun entry => { entry with bytes := #[3] }]
    (run calls).ledger.pushed = [⟨0, 0⟩, ⟨1, 0⟩, ⟨0, 1⟩] ∧
      (run calls).ledger.removed = [⟨0, 0⟩] ∧
      (run calls).ledger.live =
        [(⟨1, 0⟩, ⟨#[1], [], ["start"]⟩), (⟨0, 1⟩, ⟨#[3], [], []⟩)] ∧
      Shows (run calls).arena (run calls).ledger := by
  intro calls
  have removed : (run calls).ledger.removed = [⟨0, 0⟩] := by decide +kernel
  have few : ∀ index, (run calls).ledger.removals index < 2 ^ 32 := by
    intro index
    rw [Ledger.removals, removed]
    exact Nat.lt_of_le_of_lt List.countP_le_length (by decide)
  exact ⟨by decide +kernel, removed, by decide +kernel, (shows_run calls few).1⟩

end Session
end Arena
end ScriptBytecode
