import Mathlib.Data.List.Nodup
import Mathlib.Data.List.Perm.Subperm
import ScriptBytecode.Proofs.ReachableArenas

/-!
# Where the links of removed instructions lead

A removed instruction keeps the link it had when it was removed.  As long as live instructions stand
behind it, this link leads to the first of them, through other removed instructions if need be.
Once there was none, the instruction is severed from those that are appended later, and its link
finds nothing until compaction drops it.
-/

namespace ScriptBytecode
namespace Arena

variable {arena : Arena} {live : List Live} {before after : List Nat} {position index : Nat}
    {calls : List Call}

/-- The first live instruction at a position after the given one. -/
def firstLiveAfter? (arena : Arena) (position : Nat) : Option Handle :=
  (arena.order.toList.drop (position + 1)).findSome? arena.liveSlot?

/-- Whether the instruction at a position was removed and no live one stands behind it. -/
def endsDead (arena : Arena) (position : Nat) : Bool :=
  arena.order[position]?.any (!isLive arena.slots ·) && (arena.firstLiveAfter? position).isNone

/-- The arena that calls make of one without slots. -/
def afterCalls (calls : List Call) : Arena :=
  calls.foldl afterCall {}

/-- At some moment of the calls, with no compaction since then, the instruction at the position was
removed and no live one stood behind it. -/
def Severed (calls : List Call) (position : Nat) : Prop :=
  ∃ earlier later, calls = earlier ++ later ∧ (∀ call ∈ later, call ≠ .compact) ∧
    (afterCalls earlier).endsDead position = true

/-! ## Links -/

/-- Where the link of a slot leads, given the slots behind it in the order: to one of them with only
dead ones between, which is severed exactly if the slot is, or nowhere. -/
def LeadsFrom (slots : Array Slot) (severed : Nat → Prop) (index : Nat) (after : List Nat) :
    Option Nat → Prop
  | none => severed index ∨ ∀ other ∈ after, isLive slots other = false
  | some next => ∃ skipped rest, after = skipped ++ next :: rest ∧
      (∀ other ∈ skipped, isLive slots other = false) ∧ (severed index ↔ severed next)

/-- An arena in which the links of dead slots lead on unless they are severed. -/
structure Tracked (arena : Arena) (severed : Nat → Prop) : Prop where
  dead : ∀ index ∈ arena.order.toList, severed index → isLive arena.slots index = false
  linked : ∀ before index after, arena.order.toList = before ++ index :: after →
    isLive arena.slots index = false →
      ∃ slot, arena.slots[index]? = some slot ∧
        LeadsFrom arena.slots severed index after slot.next ∧
        (slot.next = none → severed index)

/-- The link of a live slot leads to the next live one. -/
theorem Represents.next_of_isLive
    (represents : arena.Represents live)
    (isOrder : arena.order.toList = before ++ index :: after)
    (alive : isLive arena.slots index = true) :
    ∃ slot, arena.slots[index]? = some slot ∧
      slot.next = (after.filter (isLive arena.slots)).head? := by
  have inLive : index ∈ live.map (·.1.index) := by
    rw [← represents.order, isOrder]
    exact List.mem_filter.mpr ⟨by simp, alive⟩
  obtain ⟨⟨handle, entry⟩, member, rfl⟩ := List.mem_map.mp inLive
  obtain ⟨earlier, later, rfl⟩ := List.append_of_mem member
  refine ⟨_, represents.slot_eq, ?_⟩
  have divided := represents.order
  rw [isOrder, List.filter_append, List.filter_cons, if_pos alive, List.map_append,
    List.map_cons] at divided
  have nodup := represents.nodup
  rw [isOrder] at nodup
  have notBefore : handle.index ∉ before.filter (isLive arena.slots) := by
    intro inBefore
    exact (List.nodup_append.mp nodup).2.2 _ (List.mem_filter.mp inBefore).1 _
      List.mem_cons_self rfl
  have notAfter : handle.index ∉ after.filter (isLive arena.slots) := by
    intro inAfter
    exact (List.nodup_cons.mp (List.nodup_append.mp nodup).2.1).1 (List.mem_filter.mp inAfter).1
  have sameLater := ((List.append_cons_inj_of_notMem notBefore notAfter).mp divided).2.2
  rw [sameLater, firstIndex?, List.head?_map]

/-- The order names a slot at most once, so it is not longer than the slots. -/
theorem Represents.length_order_le
    (represents : arena.Represents live) :
    arena.order.toList.length ≤ arena.slots.size := by
  have inSlots : arena.order.toList ⊆ List.range arena.slots.size := fun other member =>
    List.mem_range.mpr (represents.inRange other (Array.mem_toList_iff.mp member))
  simpa using (List.subperm_of_subset represents.nodup inSlots).length_le

theorem liveSlot?_of_isLive_eq_false
    (dead : isLive arena.slots index = false) :
    arena.liveSlot? index = none := by
  rw [← Represents.isSome_liveSlot?] at dead
  simpa using dead

/-- No live instruction is found among dead slots. -/
theorem findSome?_liveSlot?_eq_none
    {indices : List Nat}
    (allDead : ∀ index ∈ indices, isLive arena.slots index = false) :
    indices.findSome? arena.liveSlot? = none :=
  List.findSome?_eq_none_iff.mpr fun index member =>
    liveSlot?_of_isLive_eq_false (allDead index member)

namespace Tracked

variable {severed : Nat → Prop} {after : List Nat} {index : Nat}

/-- The link of any slot of the order leads on, to a live slot or a dead one. -/
theorem leadsFrom
    (tracked : arena.Tracked severed)
    (represents : arena.Represents live)
    (isOrder : arena.order.toList = before ++ index :: after) :
    ∃ slot, arena.slots[index]? = some slot ∧
      LeadsFrom arena.slots severed index after slot.next := by
  have notSevered : ∀ other ∈ index :: after, isLive arena.slots other = true →
      ¬severed other := by
    intro other member alive isSevered
    have inOrder : other ∈ arena.order.toList := by
      rw [isOrder]
      exact List.mem_append_right before member
    rw [tracked.dead other inOrder isSevered] at alive
    cases alive
  cases alive : isLive arena.slots index with
  | false =>
      obtain ⟨slot, isSlot, leads, -⟩ := tracked.linked before index after isOrder alive
      exact ⟨slot, isSlot, leads⟩
  | true =>
      obtain ⟨slot, isSlot, isNext⟩ := represents.next_of_isLive isOrder alive
      refine ⟨slot, isSlot, ?_⟩
      rw [isNext]
      cases following : after.filter (isLive arena.slots) with
      | nil =>
          right
          intro other member
          simpa using List.filter_eq_nil_iff.mp following other member
      | cons next rest =>
          obtain ⟨skipped, others, rfl, allDead, nextAlive, -⟩ :=
            List.filter_eq_cons_iff.mp following
          refine ⟨skipped, others, rfl, by simpa using allDead, ?_⟩
          exact iff_of_false (notSevered index (by simp) alive)
            (notSevered next (by simp) nextAlive)

/-- Following links from a slot of the order finds the first live one from there on, unless the slot
is severed. -/
theorem followLinks_eq
    (tracked : arena.Tracked severed)
    {steps next : Nat} {rest : List Nat}
    (isOrder : arena.order.toList = before ++ next :: rest)
    (enough : rest.length < steps) :
    (severed next → arena.followLinks steps next = none) ∧
      (¬severed next →
        arena.followLinks steps next = (next :: rest).findSome? arena.liveSlot?) := by
  induction steps generalizing before next rest with
  | zero => cases enough
  | succ steps ih =>
      rw [followLinks]
      cases alive : isLive arena.slots next with
      | true =>
          have notSevered : ¬severed next := by
            intro isSevered
            rw [tracked.dead next (by simp [isOrder]) isSevered] at alive
            cases alive
          rw [isLive] at alive
          obtain ⟨entry, isEntry⟩ := Option.isSome_iff_exists.mp alive
          obtain ⟨slot, isSlot, isEntry⟩ := Option.bind_eq_some_iff.mp isEntry
          exact ⟨fun isSevered => absurd isSevered notSevered,
            fun _ => by simp [isSlot, isEntry, liveSlot?]⟩
      | false =>
          obtain ⟨slot, isSlot, leads, ends⟩ := tracked.linked before next rest isOrder alive
          have noEntry : slot.entry = none := by simpa [isLive, isSlot] using alive
          rw [List.findSome?_cons, liveSlot?_of_isLive_eq_false alive]
          cases isNext : slot.next with
          | none =>
              exact ⟨fun _ => by simp [isSlot, noEntry, isNext],
                fun notSevered => absurd (ends isNext) notSevered⟩
          | some following =>
              rw [isNext] at leads
              obtain ⟨skipped, others, rfl, allDead, same⟩ := leads
              have isLater : arena.order.toList =
                  (before ++ next :: skipped) ++ following :: others := by
                simpa using isOrder
              have shorter : others.length < steps := by
                simp only [List.length_append, List.length_cons] at enough
                omega
              simpa [isSlot, noEntry, isNext, same, List.findSome?_append,
                findSome?_liveSlot?_eq_none allDead] using ih isLater shorter

/-- The links from a position lead to the first live instruction after it, unless the slot at the
position is severed. -/
theorem nextLive?_eq
    (tracked : arena.Tracked severed)
    (represents : arena.Represents live)
    (isOrder : arena.order.toList = before ++ index :: after) :
    (severed index → arena.nextLive? before.length = none) ∧
      (¬severed index → arena.nextLive? before.length = after.findSome? arena.liveSlot?) := by
  have atPosition : arena.order[before.length]? = some index := by
    rw [← Array.getElem?_toList, isOrder]
    simp
  have short := represents.length_order_le
  obtain ⟨slot, isSlot, leads⟩ := tracked.leadsFrom represents isOrder
  have followed : arena.nextLive? before.length =
      slot.next.bind (arena.followLinks arena.slots.size) := by
    simp [nextLive?, atPosition, isSlot]
  rw [followed]
  cases isNext : slot.next with
  | none =>
      rw [isNext] at leads
      refine ⟨fun _ => rfl, fun notSevered => ?_⟩
      rw [findSome?_liveSlot?_eq_none (leads.resolve_left notSevered), Option.bind_none]
  | some next =>
      rw [isNext] at leads
      obtain ⟨skipped, rest, rfl, allDead, same⟩ := leads
      have isLater : arena.order.toList = (before ++ index :: skipped) ++ next :: rest := by
        simpa using isOrder
      have enough : rest.length < arena.slots.size := by
        rw [isLater] at short
        simp only [List.length_append, List.length_cons] at short
        omega
      simpa [same, List.findSome?_append, findSome?_liveSlot?_eq_none allDead] using
        tracked.followLinks_eq isLater enough

end Tracked

/-! ## Calls -/

/-- What is severed after a call: the dead slots of the order that were severed before it or have no
live slot behind them. -/
def Extends (arena : Arena) (earlier later : Nat → Prop) : Prop :=
  ∀ before index after, arena.order.toList = before ++ index :: after →
    (later index ↔ isLive arena.slots index = false ∧
      (earlier index ∨ ∀ other ∈ after, isLive arena.slots other = false))

/-- The order and the slots after an instruction was appended. -/
theorem Represents.order_push
    (represents : arena.Represents live)
    (entry : Entry) :
    (arena.push entry).2.order = arena.order.push (arena.push entry).1.index ∧
      (arena.push entry).1.index ∉ arena.order ∧
      isLive (arena.push entry).2.slots (arena.push entry).1.index = true ∧
      ∀ index, index ≠ (arena.push entry).1.index →
        isLive (arena.push entry).2.slots index = isLive arena.slots index ∧
          (isLive arena.slots index = false →
            (arena.push entry).2.slots[index]? = arena.slots[index]?) := by
  obtain ⟨handle, slots, free, pushed, _, _, _, notInOrder, _, _, slotAt⟩ :=
    represents.push_eq entry
  rw [pushed]
  refine ⟨rfl, notInOrder, by simp [isLive, slotAt], fun index other => ⟨?_, fun dead => ?_⟩⟩
  · simp only [isLive, slotAt, if_neg other]
    split
    · cases arena.slots[index]? <;> rfl
    · rfl
  · have notTail : some index ≠ arena.tail := by
      intro isTail
      rw [represents.tail] at isTail
      obtain ⟨item, isLast, rfl⟩ := Option.map_eq_some_iff.mp isTail.symm
      obtain ⟨_, _, isSlot⟩ := represents.chain.slot_eq (List.mem_of_getLast? isLast)
      simp [isLive, isSlot] at dead
    exact (slotAt index).trans (by rw [if_neg other, if_neg notTail])

/-- A compacted order has no dead slots. -/
theorem isLive_of_mem_compact
    (arena : Arena)
    (inOrder : index ∈ arena.compact.order.toList) :
    isLive arena.compact.slots index = true := by
  simp only [Arena.compact, Array.toList_filter, List.mem_filter,
    Represents.isSome_liveSlot?] at inOrder
  exact inOrder.2

namespace Tracked

variable {called : Arena} {earlier later : Nat → Prop}

theorem dead_of_extends
    (extended : called.Extends earlier later) :
    ∀ index ∈ called.order.toList, later index → isLive called.slots index = false := by
  intro index member isSevered
  obtain ⟨before, after, isOrder⟩ := List.append_of_mem member
  exact ((extended before index after isOrder).mp isSevered).1

/-- A call that only takes instructions out keeps the links tracked, if it leaves the link of every
dead slot. -/
theorem thin
    (tracked : arena.Tracked earlier)
    (represents : arena.Represents live)
    (sameOrder : called.order = arena.order)
    (fewer : ∀ index, isLive called.slots index = true → isLive arena.slots index = true)
    (sameNext : ∀ index, isLive called.slots index = false →
      called.slots[index]?.map Slot.next = arena.slots[index]?.map Slot.next)
    (extended : called.Extends earlier later) :
    called.Tracked later := by
  have staysDead : ∀ index, isLive arena.slots index = false →
      isLive called.slots index = false := by
    intro index dead
    cases alive : isLive called.slots index with
    | false => rfl
    | true => rw [← dead, fewer index alive]
  refine ⟨dead_of_extends extended, fun before index after isOrder dead => ?_⟩
  have isSevered := extended before index after isOrder
  have wasOrder : arena.order.toList = before ++ index :: after := sameOrder ▸ isOrder
  obtain ⟨old, isOld, leads⟩ := tracked.leadsFrom represents wasOrder
  have isNext := sameNext index dead
  rw [isOld, Option.map_some] at isNext
  obtain ⟨slot, isSlot, isNext⟩ := Option.map_eq_some_iff.mp isNext
  refine ⟨slot, isSlot, ?_⟩
  rw [isNext]
  cases oldNext : old.next with
  | none =>
      have nowSevered : later index := by
        rw [oldNext] at leads
        refine isSevered.mpr ⟨dead, leads.imp_right fun allDead other member => ?_⟩
        exact staysDead other (allDead other member)
      exact ⟨.inl nowSevered, fun _ => nowSevered⟩
  | some next =>
      rw [oldNext] at leads
      obtain ⟨skipped, rest, rfl, allDead, same⟩ := leads
      have skippedDead : ∀ other ∈ skipped, isLive called.slots other = false :=
        fun other member => staysDead other (allDead other member)
      refine ⟨⟨skipped, rest, rfl, skippedDead, ?_⟩, by simp⟩
      have isLater : called.order.toList = (before ++ index :: skipped) ++ next :: rest := by
        simpa using isOrder
      have inOrder : next ∈ arena.order.toList := by simp [wasOrder]
      rw [isSevered, extended _ next rest isLater, ← same]
      simp only [List.forall_mem_append, List.forall_mem_cons]
      -- A severed slot of the order was dead before, and so is the next one.
      have nextDead : earlier index → isLive called.slots next = false := fun wasSevered =>
        staysDead next (tracked.dead next inOrder (same.mp wasSevered))
      tauto

/-- Removing an instruction leaves the links of the dead slots, its own one with them. -/
theorem next_remove
    {before after : List Live} {handle : Handle} {entry : Entry}
    (represents : arena.Represents (before ++ (handle, entry) :: after))
    (index : Nat)
    (dead : isLive (arena.remove handle).2.slots index = false) :
    (arena.remove handle).2.slots[index]?.map Slot.next = arena.slots[index]?.map Slot.next := by
  rw [represents.getElem?_slots_remove]
  split
  · rename_i isHere
    rw [isHere, represents.slot_eq]
    rfl
  · rename_i elsewhere
    split
    · rename_i isPrevious
      -- The slot before is live, so it is none of those in question.
      obtain ⟨item, inBefore, isItem⟩ := Option.map_eq_some_iff.mp isPrevious.symm
      obtain ⟨_, _, isSlot⟩ := represents.chain.slot_eq
        (List.mem_append_left _ (List.mem_of_getLast? inBefore))
      rw [isItem] at isSlot
      rw [represents.isLive_remove] at dead
      simp [isLive, isSlot, elsewhere] at dead
    · split
      · cases arena.slots[index]? <;> rfl
      · rfl

theorem remove
    (tracked : arena.Tracked earlier)
    (represents : arena.Represents live)
    (ordered : arena.Ordered)
    (handle : Handle)
    (extended : (arena.remove handle).2.Extends earlier later) :
    (arena.remove handle).2.Tracked later := by
  have thins := Thins.remove arena handle
  refine tracked.thin represents thins.order thins.live (fun index dead => ?_) extended
  cases found : arena.get? handle with
  | none => rw [remove_of_get?_eq_none found]
  | some entry =>
      obtain ⟨before, after, rfl⟩ := List.append_of_mem
        ((represents.get?_eq_some_iff (represents.complete ordered)).mp found)
      exact next_remove represents index dead

theorem modify
    (tracked : arena.Tracked earlier)
    (represents : arena.Represents live)
    (handle : Handle)
    (change : Entry → Entry)
    (extended : (arena.modify handle change).Extends earlier later) :
    (arena.modify handle change).Tracked later := by
  have thins := Thins.modify arena handle change
  refine tracked.thin represents thins.order thins.live (fun index _ => ?_) extended
  rw [slots_modify_eq]
  cases arena.slots[index]? with
  | none => rfl
  | some slot =>
      simp only [Option.map_some, Option.some.injEq]
      split <;> rfl

/-- A new instruction is live and the last one, so it severs no slot, and dead slots do not get a
link to it. -/
theorem push
    (tracked : arena.Tracked earlier)
    (represents : arena.Represents live)
    (entry : Entry)
    (extended : (arena.push entry).2.Extends earlier later) :
    (arena.push entry).2.Tracked later := by
  refine ⟨dead_of_extends extended, fun before index after isOrder dead => ?_⟩
  obtain ⟨isPushed, notInOrder, isNew, sameSlot⟩ := represents.order_push entry
  generalize (arena.push entry).1.index = new at isPushed notInOrder isNew sameSlot
  have notNew : ∀ other ∈ arena.order.toList, other ≠ new := by
    rintro other member rfl
    exact notInOrder (Array.mem_toList_iff.mp member)
  have sameLive : ∀ other ∈ arena.order.toList,
      isLive (arena.push entry).2.slots other = isLive arena.slots other :=
    fun other member => (sameSlot other (notNew other member)).1
  -- What is severed in front of the new instruction was severed before.
  have sameSevered : ∀ first other rest, arena.order.toList = first ++ other :: rest →
      (later other ↔ earlier other) := by
    intro first other rest wasOrder
    have inOrder : other ∈ arena.order.toList := by simp [wasOrder]
    have nowOrder : (arena.push entry).2.order.toList = first ++ other :: (rest ++ [new]) := by
      simp [isPushed, wasOrder]
    rw [extended _ _ _ nowOrder, sameLive other inOrder]
    constructor
    · rintro ⟨-, wasSevered | allDead⟩
      · exact wasSevered
      · simp [allDead new (by simp)] at isNew
    · exact fun wasSevered => ⟨tracked.dead other inOrder wasSevered, .inl wasSevered⟩
  rw [isPushed, Array.toList_push] at isOrder
  rcases List.eq_nil_or_concat after with rfl | ⟨between, last, rfl⟩
  · -- The last slot of the order is the new one, which is live.
    obtain ⟨-, isLast⟩ := List.append_inj' isOrder rfl
    rw [← (List.cons.inj isLast).1, isNew] at dead
    cases dead
  · rw [List.concat_eq_append, ← List.cons_append, ← List.append_assoc] at isOrder
    obtain ⟨wasOrder, isLast⟩ := List.append_inj' isOrder rfl
    obtain ⟨rfl, -⟩ := List.cons.inj isLast
    have inOrder : index ∈ arena.order.toList := by simp [wasOrder]
    rw [sameLive index inOrder] at dead
    obtain ⟨slot, isSlot, leads, ends⟩ := tracked.linked before index between wasOrder dead
    have isSevered := sameSevered before index between wasOrder
    refine ⟨slot, ((sameSlot index (notNew index inOrder)).2 dead).trans isSlot, ?_,
      fun isNone => isSevered.mpr (ends isNone)⟩
    cases isNext : slot.next with
    | none => exact .inl (isSevered.mpr (ends isNext))
    | some next =>
        rw [isNext] at leads
        obtain ⟨skipped, rest, rfl, allDead, same⟩ := leads
        refine ⟨skipped, rest ++ [new], by simp, fun other member => ?_, ?_⟩
        · rw [sameLive other (by simp [wasOrder, member])]
          exact allDead other member
        · have wasLater : arena.order.toList = (before ++ index :: skipped) ++ next :: rest := by
            simpa using wasOrder
          rw [isSevered, same, sameSevered _ next rest wasLater]

theorem compact
    (extended : arena.compact.Extends earlier later) :
    arena.compact.Tracked later := by
  refine ⟨dead_of_extends extended, fun before index after isOrder dead => ?_⟩
  have alive := isLive_of_mem_compact arena (by simp [isOrder] : index ∈ arena.compact.order.toList)
  rw [dead] at alive
  cases alive

/-- A call keeps the links tracked. -/
theorem afterCall
    (tracked : arena.Tracked earlier)
    (represents : arena.Represents live)
    (ordered : arena.Ordered)
    (call : Call)
    (extended : (arena.afterCall call).Extends earlier later) :
    (arena.afterCall call).Tracked later := by
  cases call with
  | push entry => exact tracked.push represents entry extended
  | remove handle => exact tracked.remove represents ordered handle extended
  | modify handle change => exact tracked.modify represents handle change extended
  | compact => exact compact extended
  | addLabel label =>
      exact tracked.thin represents rfl (fun _ alive => alive) (fun _ _ => rfl) extended
  | close => exact tracked.thin represents rfl (fun _ alive => alive) (fun _ _ => rfl) extended

end Tracked

/-! ## Runs of calls -/

theorem afterCalls_concat (calls : List Call) (call : Call) :
    afterCalls (calls ++ [call]) = (afterCalls calls).afterCall call := by
  simp [afterCalls]

theorem severed_concat (calls : List Call) (call : Call) (position : Nat) :
    Severed (calls ++ [call]) position ↔
      (afterCalls (calls ++ [call])).endsDead position = true ∨
        call ≠ .compact ∧ Severed calls position := by
  constructor
  · rintro ⟨earlier, later, divided, kept, endsDead⟩
    rcases List.eq_nil_or_concat later with rfl | ⟨init, last, rfl⟩
    · rw [List.append_nil] at divided
      exact .inl (divided ▸ endsDead)
    · rw [List.concat_eq_append, ← List.append_assoc] at divided
      obtain ⟨rfl, isLast⟩ := List.append_inj' divided rfl
      obtain ⟨rfl, -⟩ := List.cons.inj isLast
      exact .inr ⟨kept call (by simp), earlier, init, rfl,
        fun other member => kept other (by simp [member]), endsDead⟩
  · rintro (endsDead | ⟨notCompact, earlier, later, rfl, kept, endsDead⟩)
    · exact ⟨calls ++ [call], [], by simp, by simp, endsDead⟩
    · refine ⟨earlier, later ++ [call], by simp, fun other member => ?_, endsDead⟩
      rcases List.mem_append.mp member with inLater | isLast
      · exact kept other inLater
      · rw [List.mem_singleton.mp isLast]
        exact notCompact

/-- What it takes for a position to end dead, read off the order. -/
theorem endsDead_iff
    (isOrder : arena.order.toList = before ++ index :: after) :
    arena.endsDead before.length = true ↔
      isLive arena.slots index = false ∧ ∀ other ∈ after, isLive arena.slots other = false := by
  have atPosition : arena.order[before.length]? = some index := by
    rw [← Array.getElem?_toList, isOrder]
    simp
  have behind : arena.order.toList.drop (before.length + 1) = after := by
    rw [isOrder, ← List.drop_drop]
    simp
  have noneLive : after.findSome? arena.liveSlot? = none ↔
      ∀ other ∈ after, isLive arena.slots other = false := by
    simp only [List.findSome?_eq_none_iff, ← Represents.isSome_liveSlot?,
      Option.isSome_eq_false_iff, Option.isNone_iff_eq_none]
  simp [endsDead, atPosition, firstLiveAfter?, behind, noneLive]

/-- A dead slot of the order keeps its position and stays dead until compaction. -/
theorem Represents.dead_afterCall
    (represents : arena.Represents live)
    {call : Call}
    (notCompact : call ≠ .compact)
    (atPosition : arena.order[position]? = some index)
    (dead : isLive arena.slots index = false) :
    (arena.afterCall call).order[position]? = some index ∧
      isLive (arena.afterCall call).slots index = false := by
  have ofThins : ∀ thinned, Thins arena thinned →
      thinned.order[position]? = some index ∧ isLive thinned.slots index = false := by
    intro thinned thins
    refine ⟨thins.order ▸ atPosition, Bool.eq_false_iff.mpr fun alive => ?_⟩
    rw [thins.live index alive] at dead
    cases dead
  cases call with
  | push entry =>
      obtain ⟨isPushed, notInOrder, -, sameSlot⟩ := represents.order_push entry
      obtain ⟨inRange, isIndex⟩ := Array.getElem?_eq_some_iff.mp atPosition
      have notNew : index ≠ (arena.push entry).1.index := by
        rintro rfl
        exact notInOrder (isIndex ▸ Array.getElem_mem inRange)
      refine ⟨?_, (sameSlot index notNew).1.trans dead⟩
      rw [Arena.afterCall, isPushed, Array.getElem?_push_lt inRange, isIndex]
  | addLabel label => exact ⟨atPosition, dead⟩
  | close => exact ⟨atPosition, dead⟩
  | remove handle => exact ofThins _ (.remove arena handle)
  | modify handle change => exact ofThins _ (.modify arena handle change)
  | compact => exact absurd rfl notCompact

/-- The slots of the order whose instruction is severed. -/
def SeveredSlot (calls : List Call) (index : Nat) : Prop :=
  ∃ position, (afterCalls calls).order[position]? = some index ∧ Severed calls position

theorem exists_represents_afterCalls (calls : List Call) :
    (∃ live, (afterCalls calls).Represents live) ∧ (afterCalls calls).Ordered := by
  induction calls using List.reverseRecOn with
  | nil => exact ⟨⟨[], represents_empty⟩, by simp [Ordered, isLive, afterCalls]⟩
  | append_singleton calls call ih =>
      obtain ⟨⟨live, represents⟩, ordered⟩ := ih
      rw [afterCalls_concat]
      exact represents.afterCall ordered call

theorem dead_of_endsDead
    (isEnd : arena.endsDead position = true) :
    ∃ index, arena.order[position]? = some index ∧ isLive arena.slots index = false := by
  have removed := (Bool.and_eq_true_iff.mp isEnd).1
  simpa only [Option.any_eq_true, Bool.not_eq_true'] using removed

/-- A severed position is one of a removed instruction. -/
theorem Severed.dead
    (severed : Severed calls position) :
    ∃ index, (afterCalls calls).order[position]? = some index ∧
      isLive (afterCalls calls).slots index = false := by
  induction calls using List.reverseRecOn with
  | nil =>
      obtain ⟨earlier, later, divided, -, isEnd⟩ := severed
      obtain ⟨rfl, -⟩ := List.append_eq_nil_iff.mp divided.symm
      exact dead_of_endsDead isEnd
  | append_singleton calls call ih =>
      rcases (severed_concat calls call position).mp severed with isEnd | ⟨notCompact, earlier⟩
      · exact dead_of_endsDead isEnd
      · obtain ⟨⟨live, represents⟩, -⟩ := exists_represents_afterCalls calls
        obtain ⟨index, atPosition, dead⟩ := ih earlier
        rw [afterCalls_concat]
        exact ⟨index, represents.dead_afterCall notCompact atPosition dead⟩

/-- The order names a slot once. -/
theorem Represents.position_eq
    (represents : arena.Represents live)
    (isOrder : arena.order.toList = before ++ index :: after)
    (atPosition : arena.order[position]? = some index) :
    position = before.length := by
  have inRange : position < arena.order.toList.length := by
    simpa using (Array.getElem?_eq_some_iff.mp atPosition).1
  refine (List.getElem?_inj inRange represents.nodup).mp ?_
  rw [Array.getElem?_toList, atPosition, isOrder]
  simp

/-- A slot of the order is severed if its position is. -/
theorem severedSlot_iff
    (isOrder : (afterCalls calls).order.toList = before ++ index :: after) :
    SeveredSlot calls index ↔ Severed calls before.length := by
  obtain ⟨⟨live, represents⟩, -⟩ := exists_represents_afterCalls calls
  have atPosition : (afterCalls calls).order[before.length]? = some index := by
    rw [← Array.getElem?_toList, isOrder]
    simp
  refine ⟨?_, fun severed => ⟨before.length, atPosition, severed⟩⟩
  rintro ⟨position, alsoThere, severed⟩
  rwa [← represents.position_eq isOrder alsoThere]

theorem extends_afterCalls (calls : List Call) (call : Call) :
    (afterCalls (calls ++ [call])).Extends (SeveredSlot calls) (SeveredSlot (calls ++ [call])) := by
  intro before index after isOrder
  obtain ⟨⟨live, represents⟩, -⟩ := exists_represents_afterCalls calls
  rw [severedSlot_iff isOrder, severed_concat, endsDead_iff isOrder]
  constructor
  · rintro (⟨dead, allDead⟩ | ⟨notCompact, severed⟩)
    · exact ⟨dead, .inr allDead⟩
    · obtain ⟨other, wasThere, wasDead⟩ := severed.dead
      obtain ⟨isThere, isDead⟩ := represents.dead_afterCall notCompact wasThere wasDead
      rw [← afterCalls_concat] at isThere isDead
      rw [← Array.getElem?_toList, isOrder] at isThere
      obtain rfl : index = other := by simpa using isThere
      exact ⟨isDead, .inl ⟨_, wasThere, severed⟩⟩
  · rintro ⟨dead, ⟨position, wasThere, severed⟩ | allDead⟩
    · have notCompact : call ≠ .compact := by
        rintro rfl
        rw [afterCalls_concat, Arena.afterCall] at isOrder dead
        rw [isLive_of_mem_compact _ (by simp [isOrder])] at dead
        cases dead
      obtain ⟨other, alsoThere, wasDead⟩ := severed.dead
      obtain rfl : index = other := Option.some.inj (wasThere.symm.trans alsoThere)
      have isThere := (represents.dead_afterCall notCompact wasThere wasDead).1
      rw [← afterCalls_concat] at isThere
      obtain ⟨⟨_, nowRepresents⟩, -⟩ := exists_represents_afterCalls (calls ++ [call])
      exact .inr ⟨notCompact, nowRepresents.position_eq isOrder isThere ▸ severed⟩
    · exact .inl ⟨dead, allDead⟩

/-- After any calls the links of the order lead on unless they are severed. -/
theorem tracked_afterCalls (calls : List Call) :
    (afterCalls calls).Tracked (SeveredSlot calls) := by
  induction calls using List.reverseRecOn with
  | nil => exact ⟨by simp [afterCalls], by simp [afterCalls]⟩
  | append_singleton calls call ih =>
      obtain ⟨⟨live, represents⟩, ordered⟩ := exists_represents_afterCalls calls
      have extended := extends_afterCalls calls call
      rw [afterCalls_concat] at extended ⊢
      exact ih.afterCall represents ordered call extended

/-- After any calls, links come to their end within as many steps as there are slots: with more
steps the answer is the same, so nothing is missed for want of steps. -/
theorem followLinks_of_le
    {next steps : Nat}
    (inOrder : next ∈ (afterCalls calls).order.toList)
    (enough : (afterCalls calls).slots.size ≤ steps) :
    (afterCalls calls).followLinks steps next =
      (afterCalls calls).followLinks (afterCalls calls).slots.size next := by
  obtain ⟨⟨live, represents⟩, -⟩ := exists_represents_afterCalls calls
  obtain ⟨before, rest, isOrder⟩ := List.append_of_mem inOrder
  have short : rest.length < (afterCalls calls).slots.size := by
    have atMost := represents.length_order_le
    rw [isOrder, List.length_append, List.length_cons] at atMost
    omega
  have fewer := (tracked_afterCalls calls).followLinks_eq isOrder short
  have more := (tracked_afterCalls calls).followLinks_eq isOrder (Nat.lt_of_lt_of_le short enough)
  by_cases severed : SeveredSlot calls next
  · rw [fewer.1 severed, more.1 severed]
  · rw [fewer.2 severed, more.2 severed]

/-- After any calls the links from a position lead to the first live instruction behind it, unless
the instruction at the position was removed and at some moment since then had no live one behind it:
from there they lead nowhere, also when instructions were appended later.  A live instruction is
never severed. -/
theorem nextLive?_afterCalls (calls : List Call) (position : Nat) :
    (Severed calls position → (afterCalls calls).nextLive? position = none ∧
        (afterCalls calls).liveAt? position = none) ∧
      (¬Severed calls position →
        (afterCalls calls).nextLive? position = (afterCalls calls).firstLiveAfter? position) := by
  obtain ⟨⟨live, represents⟩, -⟩ := exists_represents_afterCalls calls
  cases atPosition : (afterCalls calls).order[position]? with
  | none =>
      have pastEnd : (afterCalls calls).order.size ≤ position :=
        Array.getElem?_eq_none_iff.mp atPosition
      have nothing : (afterCalls calls).order.toList.drop (position + 1) = [] :=
        List.drop_eq_nil_iff.mpr (by simp; omega)
      simp [nextLive?, liveAt?, atPosition, firstLiveAfter?, nothing]
  | some index =>
      have isOrder : (afterCalls calls).order.toList =
          (afterCalls calls).order.toList.take position ++
            index :: (afterCalls calls).order.toList.drop (position + 1) := by
        obtain ⟨inRange, isIndex⟩ :=
          List.getElem?_eq_some_iff.mp (Array.getElem?_toList.trans atPosition)
        rw [← isIndex, ← List.drop_eq_getElem_cons inRange, List.take_append_drop]
      have followed := (tracked_afterCalls calls).nextLive?_eq represents isOrder
      rw [severedSlot_iff isOrder, ← represents.position_eq isOrder atPosition] at followed
      refine ⟨fun severed => ⟨followed.1 severed, ?_⟩, followed.2⟩
      obtain ⟨other, alsoThere, dead⟩ := severed.dead
      rw [liveAt?, alsoThere, Option.bind_some, liveSlot?_of_isLive_eq_false dead]

/-- An instruction that was removed as the last one does not find the one that is appended then. -/
theorem nextLive?_ne_firstLiveAfter?_of_severed :
    let arena := afterCalls [.push ⟨#[0x13], [], []⟩, .push ⟨#[0x6a], [], []⟩, .remove ⟨1, 0⟩,
      .push ⟨#[0x6b], [], []⟩]
    arena.nextLive? 1 = none ∧ arena.firstLiveAfter? 1 = some ⟨2, 0⟩ := by
  decide +kernel

end Arena
end ScriptBytecode
