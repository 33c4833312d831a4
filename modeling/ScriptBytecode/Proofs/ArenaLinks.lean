import Mathlib.Data.List.Nodup
import ScriptBytecode.Arena.Fusion

/-!
# The live instructions of an arena

The live slots of an arena are linked to each other in program order.  `Arena.Represents` relates
an arena to the list of its live instructions with their handles, and every operation of the arena
is described by what it does to this list.
-/

namespace ScriptBytecode
namespace Arena

variable {slots : Array Slot} {previous next : Option Nat} {live : List Live}

/-- A live instruction and its handle. -/
abbrev Live := Handle × Entry

/-- The slot of the first instruction. -/
def firstIndex? (live : List Live) : Option Nat :=
  live.head?.map (·.1.index)

/-- The slot of the last instruction. -/
def lastIndex? (live : List Live) : Option Nat :=
  live.getLast?.map (·.1.index)

/-- The slots of instructions are linked to each other, to a slot before the first one and to one
after the last one. -/
def Chain (slots : Array Slot) : (previous : Option Nat) → List Live → (next : Option Nat) → Prop
  | _, [], _ => True
  | previous, (handle, entry) :: rest, next =>
    slots[handle.index]? =
        some ⟨handle.generation, some entry, previous, (firstIndex? rest).or next⟩ ∧
      Chain slots (some handle.index) rest next

/-- Whether a slot holds an instruction. -/
def isLive (slots : Array Slot) (index : Nat) : Bool :=
  (slots[index]?.bind Slot.entry).isSome

/-- An arena whose live instructions are the given ones, in program order. -/
structure Represents (arena : Arena) (live : List Live) : Prop where
  chain : Chain arena.slots none live none
  order : arena.order.toList.filter (isLive arena.slots) = live.map (·.1.index)
  nodup : arena.order.toList.Nodup
  inRange : ∀ index ∈ arena.order, index < arena.slots.size
  tail : arena.tail = lastIndex? live
  free : ∀ index ∈ arena.free, index < arena.slots.size ∧ isLive arena.slots index = false ∧
    index ∉ arena.order
  freeNodup : arena.free.Nodup

/-- Instructions with labels put before those of the first one. -/
def prependLabels (labels : List String) : List Live → List Live
  | [] => []
  | (handle, entry) :: rest => (handle, { entry with labels := labels ++ entry.labels }) :: rest

/-! ## Chains -/

@[simp] theorem firstIndex?_nil : firstIndex? [] = none := rfl

@[simp] theorem firstIndex?_cons (head : Live) (rest : List Live) :
    firstIndex? (head :: rest) = some head.1.index := rfl

@[simp] theorem lastIndex?_nil : lastIndex? [] = none := rfl

@[simp] theorem lastIndex?_concat (live : List Live) (last : Live) :
    lastIndex? (live ++ [last]) = some last.1.index := by
  simp [lastIndex?]

theorem lastIndex?_cons (head : Live) (rest : List Live) :
    lastIndex? (head :: rest) = (lastIndex? rest).or (some head.1.index) := by
  rcases List.eq_nil_or_concat rest with rfl | ⟨init, last, rfl⟩
  · rfl
  · rw [List.concat_eq_append, ← List.cons_append, lastIndex?_concat, lastIndex?_concat]
    rfl

@[simp] theorem firstIndex?_prependLabels (labels : List String) (live : List Live) :
    firstIndex? (prependLabels labels live) = firstIndex? live := by
  cases live <;> rfl

@[simp] theorem map_index_prependLabels (labels : List String) (live : List Live) :
    (prependLabels labels live).map (·.1.index) = live.map (·.1.index) := by
  cases live <;> rfl

theorem firstIndex?_append (left right : List Live) :
    firstIndex? (left ++ right) = (firstIndex? left).or (firstIndex? right) := by
  cases left <;> simp

theorem chain_append
    (slots : Array Slot)
    (previous next : Option Nat)
    (left right : List Live) :
    Chain slots previous (left ++ right) next ↔
      Chain slots previous left ((firstIndex? right).or next) ∧
        Chain slots ((lastIndex? left).or previous) right next := by
  induction left generalizing previous with
  | nil => simp [Chain]
  | cons head rest ih =>
      obtain ⟨handle, entry⟩ := head
      rw [List.cons_append, Chain, Chain, ih, firstIndex?_append, Option.or_assoc,
        lastIndex?_cons, Option.or_assoc, Option.some_or, and_assoc]

/-- A chain only depends on the slots of its instructions. -/
theorem Chain.congr
    {others : Array Slot}
    (chain : Chain slots previous live next)
    (same : ∀ item ∈ live, others[item.1.index]? = slots[item.1.index]?) :
    Chain others previous live next := by
  induction live generalizing previous with
  | nil => trivial
  | cons head rest ih =>
      obtain ⟨here, later⟩ := chain
      obtain ⟨sameHere, sameLater⟩ := List.forall_mem_cons.mp same
      exact ⟨sameHere.trans here, ih later sameLater⟩

/-- Every instruction of a chain is in its slot. -/
theorem Chain.slot_eq
    (chain : Chain slots previous live next)
    {item : Live}
    (member : item ∈ live) :
    ∃ before after,
      slots[item.1.index]? = some ⟨item.1.generation, some item.2, before, after⟩ := by
  induction live generalizing previous with
  | nil => cases member
  | cons head rest ih =>
      obtain ⟨here, later⟩ := chain
      rcases List.mem_cons.mp member with rfl | inRest
      · exact ⟨_, _, here⟩
      · exact ih later inRest

namespace Represents

variable {arena : Arena} {live : List Live} {slots : Array Slot}

theorem indices_nodup (represents : arena.Represents live) :
    (live.map (·.1.index)).Nodup := by
  rw [← represents.order]
  exact represents.nodup.filter _

/-- What is found for the slots of the order is found for the live instructions. -/
theorem filterMap_order
    {α : Type}
    (represents : arena.Represents live)
    {found : Nat → Option α} {value : Live → α}
    (dead : ∀ index, isLive arena.slots index = false → found index = none)
    (isFound : ∀ item ∈ live, found item.1.index = some (value item)) :
    arena.order.filterMap found = (live.map value).toArray := by
  have onlyLive : arena.order.toList.filterMap found =
      (arena.order.toList.filter (isLive arena.slots)).filterMap found := by
    rw [List.filterMap_filter]
    apply List.filterMap_congr
    intro index _
    cases isAlive : isLive arena.slots index with
    | false => simp [dead index isAlive]
    | true => simp
  have values : (live.map (·.1.index)).filterMap found = live.map value := by
    rw [List.filterMap_map, ← List.filterMap_eq_map]
    exact List.filterMap_congr isFound
  apply Array.toList_inj.mp
  rw [Array.toList_filterMap, onlyLive, represents.order, values]

/-- The live instructions in program order. -/
theorem entries_eq (represents : arena.Represents live) :
    arena.entries = (live.map Prod.snd).toArray := by
  refine represents.filterMap_order (fun index dead => ?_) (fun item member => ?_)
  · simpa [isLive] using dead
  · obtain ⟨before, after, slot⟩ := represents.chain.slot_eq member
    simp [slot]

/-- Changing slots of the order without bringing dead ones back. -/
theorem update
    (represents : arena.Represents live)
    {changed : List Live}
    (sameSize : slots.size = arena.slots.size)
    (chain : Chain slots none changed none)
    (order : arena.order.toList.filter (isLive slots) = changed.map (·.1.index))
    (staysDead : ∀ index, isLive arena.slots index = false → isLive slots index = false)
    (pending trailing : List String) :
    Represents ⟨slots, arena.order, arena.free, lastIndex? changed, pending, trailing⟩ changed where
  chain := chain
  order := order
  nodup := represents.nodup
  inRange := fun index member => sameSize ▸ represents.inRange index member
  tail := rfl
  free := by
    intro index member
    obtain ⟨inRange, dead, notInOrder⟩ := represents.free index member
    exact ⟨sameSize ▸ inRange, staysDead index dead, notInOrder⟩
  freeNodup := represents.freeNodup

section Divided

variable {before after : List Live} {handle : Handle} {entry : Entry} {item : Live}

variable (represents : arena.Represents (before ++ (handle, entry) :: after))

include represents

theorem index_ne_of_mem_before :
    ∀ item ∈ before, item.1.index ≠ handle.index := by
  intro item member same
  have nodup := represents.indices_nodup
  rw [List.map_append, List.map_cons] at nodup
  exact (List.nodup_append.mp nodup).2.2 _ (List.mem_map_of_mem member) _ List.mem_cons_self same

theorem index_ne_of_mem_after :
    ∀ item ∈ after, item.1.index ≠ handle.index := by
  intro item member same
  have nodup := represents.indices_nodup
  rw [List.map_append, List.map_cons] at nodup
  have later := (List.nodup_cons.mp (List.nodup_append.mp nodup).2.1).1
  exact later (List.mem_map.mpr ⟨item, member, same⟩)

theorem index_ne_across
    {left right : Live}
    (inBefore : left ∈ before)
    (inAfter : right ∈ after) :
    left.1.index ≠ right.1.index := by
  have nodup := represents.indices_nodup
  rw [List.map_append, List.map_cons] at nodup
  exact (List.nodup_append.mp nodup).2.2 _ (List.mem_map_of_mem inBefore) _
    (List.mem_cons_of_mem _ (List.mem_map_of_mem inAfter))

theorem ne_firstIndex?_of_mem_before
    (inBefore : item ∈ before) :
    some item.1.index ≠ firstIndex? after := by
  intro isFirst
  obtain ⟨right, inAfter, same⟩ := Option.map_eq_some_iff.mp isFirst.symm
  exact represents.index_ne_across inBefore (List.mem_of_head? inAfter) same.symm

theorem ne_lastIndex?_of_mem_after
    (inAfter : item ∈ after) :
    some item.1.index ≠ lastIndex? before := by
  intro isLast
  obtain ⟨left, inBefore, same⟩ := Option.map_eq_some_iff.mp isLast.symm
  exact represents.index_ne_across (List.mem_of_getLast? inBefore) inAfter same

/-- The slot of a live instruction. -/
theorem slot_eq :
    arena.slots[handle.index]? =
      some ⟨handle.generation, some entry, lastIndex? before, firstIndex? after⟩ := by
  obtain ⟨_, here, _⟩ := (chain_append _ _ _ _ _).mp represents.chain
  simpa using here

/-- The instruction of a handle is found. -/
theorem slot?_eq :
    arena.slot? handle =
      some (⟨handle.generation, some entry, lastIndex? before, firstIndex? after⟩, entry) := by
  simp [slot?, represents.slot_eq]

/-- Changing an instruction changes it in its place. -/
theorem modify
    (change : Entry → Entry) :
    (arena.modify handle change).Represents (before ++ (handle, change entry) :: after) := by
  obtain ⟨first, _, second⟩ := (chain_append _ _ _ _ _).mp represents.chain
  have changed : (arena.modify handle change).slots[handle.index]? =
      some ⟨handle.generation, some (change entry), lastIndex? before, firstIndex? after⟩ := by
    simp [Arena.modify, Array.getElem?_modify, represents.slot_eq]
  have others : ∀ index, index ≠ handle.index →
      (arena.modify handle change).slots[index]? = arena.slots[index]? := by
    intro index other
    simp [Arena.modify, Array.getElem?_modify, other.symm]
  have sameLive : ∀ index,
      isLive (arena.modify handle change).slots index = isLive arena.slots index := by
    intro index
    by_cases here : index = handle.index
    · subst here
      simp [isLive, changed, represents.slot_eq]
    · simp [isLive, others index here]
  have chain : Chain (arena.modify handle change).slots none
      (before ++ (handle, change entry) :: after) none := by
    refine (chain_append _ _ _ _ _).mpr ⟨?_, ?_, ?_⟩
    · exact first.congr fun item member =>
        others _ (represents.index_ne_of_mem_before item member)
    · simpa using changed
    · exact second.congr fun item member =>
        others _ (represents.index_ne_of_mem_after item member)
  have order : arena.order.toList.filter (isLive (arena.modify handle change).slots) =
      (before ++ (handle, change entry) :: after).map (·.1.index) := by
    rw [List.filter_congr fun index _ => sameLive index, represents.order]
    simp
  have sameTail : lastIndex? (before ++ (handle, change entry) :: after) = arena.tail := by
    rw [represents.tail]
    simp [lastIndex?, List.getLast?_append, List.getLast?_cons]
    cases after.getLast? <;> rfl
  have result := represents.update (by simp [Arena.modify]) chain order
    (fun index dead => (sameLive index).trans dead) arena.pending arena.trailing
  rwa [sameTail] at result

/-- The slots after the removal of an instruction: its own one is dead, and its neighbours are
linked to each other. -/
theorem getElem?_slots_remove
    (index : Nat) :
    (arena.remove handle).2.slots[index]? =
      if index = handle.index then
        some ⟨handle.generation + 1, none, lastIndex? before, firstIndex? after⟩
      else if some index = lastIndex? before then
        arena.slots[index]?.map fun slot => { slot with next := firstIndex? after }
      else if some index = firstIndex? after then
        arena.slots[index]?.map fun slot =>
          { slot with
            previous := lastIndex? before
            entry := slot.entry.map fun follower =>
              { follower with labels := entry.labels ++ follower.labels } }
      else arena.slots[index]? := by
  have inRange : handle.index < arena.slots.size :=
    (Array.getElem?_eq_some_iff.mp represents.slot_eq).1
  have apart : ∀ previous, lastIndex? before = some previous →
      firstIndex? after ≠ some previous := by
    intro previous isLast isFirst
    obtain ⟨left, inBefore, rfl⟩ := Option.map_eq_some_iff.mp isLast
    exact represents.ne_firstIndex?_of_mem_before (List.mem_of_getLast? inBefore) isFirst.symm
  have notLast : lastIndex? before ≠ some handle.index := by
    intro isLast
    obtain ⟨left, inBefore, same⟩ := Option.map_eq_some_iff.mp isLast
    exact represents.index_ne_of_mem_before left (List.mem_of_getLast? inBefore) same
  have notFirst : firstIndex? after ≠ some handle.index := by
    intro isFirst
    obtain ⟨right, inAfter, same⟩ := Option.map_eq_some_iff.mp isFirst
    exact represents.index_ne_of_mem_after right (List.mem_of_head? inAfter) same
  simp only [remove, represents.slot?_eq]
  cases previous : lastIndex? before <;> cases next : firstIndex? after <;>
    simp only [Array.getElem?_modify, Array.getElem?_setIfInBounds, inRange,
      reduceCtorEq, if_false, if_true, Option.some.injEq] <;>
    grind

/-- After a removal the instructions before are linked to the ones after. -/
theorem chain_before_remove :
    Chain (arena.remove handle).2.slots none before (firstIndex? after) := by
  obtain ⟨chain, _⟩ := (chain_append _ _ _ _ _).mp represents.chain
  have slots := represents.getElem?_slots_remove
  have notHere := represents.index_ne_of_mem_before
  rcases List.eq_nil_or_concat before with rfl | ⟨init, last, rfl⟩
  · trivial
  · rw [List.concat_eq_append] at *
    obtain ⟨initChain, lastSlot, _⟩ := (chain_append _ _ _ _ _).mp chain
    refine (chain_append _ _ _ _ _).mpr ⟨?_, ?_, trivial⟩
    · refine initChain.congr fun item member => ?_
      have inBefore := List.mem_append_left [last] member
      have notLast : item.1.index ≠ last.1.index := by
        have nodup := represents.indices_nodup
        rw [List.map_append, List.map_append] at nodup
        exact (List.nodup_append.mp (List.nodup_append.mp nodup).1).2.2 _
          (List.mem_map_of_mem member) _ List.mem_cons_self
      rw [slots, if_neg (notHere item inBefore), if_neg (by simpa using notLast),
        if_neg (represents.ne_firstIndex?_of_mem_before inBefore)]
    · rw [slots, if_neg (notHere last (by simp)), if_pos (by simp), lastSlot]
      simp

/-- After a removal the instructions after are linked to the ones before. -/
theorem chain_after_remove :
    Chain (arena.remove handle).2.slots (lastIndex? before) (prependLabels entry.labels after)
      none := by
  obtain ⟨_, _, chain⟩ := (chain_append _ _ _ _ _).mp represents.chain
  have slots := represents.getElem?_slots_remove
  have notHere := represents.index_ne_of_mem_after
  cases after with
  | nil => trivial
  | cons next rest =>
      obtain ⟨nextSlot, restChain⟩ := chain
      refine ⟨?_, ?_⟩
      · rw [slots, if_neg (notHere next List.mem_cons_self),
          if_neg (represents.ne_lastIndex?_of_mem_after List.mem_cons_self),
          if_pos (firstIndex?_cons next rest).symm, nextSlot]
        simp
      · refine restChain.congr fun item member => ?_
        have inAfter := List.mem_cons_of_mem next member
        have notNext : item.1.index ≠ next.1.index := by
          intro same
          have nodup := represents.indices_nodup
          rw [List.map_append, List.map_cons] at nodup
          have afterNodup := (List.nodup_cons.mp (List.nodup_append.mp nodup).2.1).2
          exact (List.nodup_cons.mp afterNodup).1 (List.mem_map.mpr ⟨item, member, same⟩)
        rw [slots, if_neg (notHere item inAfter),
          if_neg (represents.ne_lastIndex?_of_mem_after inAfter), if_neg (by simpa using notNext)]

/-- A removal leaves exactly the other slots live. -/
theorem isLive_remove
    (index : Nat) :
    isLive (arena.remove handle).2.slots index =
      (isLive arena.slots index && decide (index ≠ handle.index)) := by
  unfold isLive
  rw [represents.getElem?_slots_remove]
  split
  · rename_i here
    simp [here]
  · rename_i elsewhere
    split
    · cases arena.slots[index]? <;> simp [elsewhere]
    · split
      · cases arena.slots[index]? <;> simp [elsewhere]
      · simp [elsewhere]

/-- A removal takes the instruction out and moves its labels to the next one, or after the last
one. -/
theorem remove :
    (arena.remove handle).2.Represents (before ++ prependLabels entry.labels after) := by
  have chain : Chain (arena.remove handle).2.slots none
      (before ++ prependLabels entry.labels after) none := by
    refine (chain_append _ _ _ _ _).mpr ⟨?_, ?_⟩
    · simpa using represents.chain_before_remove
    · simpa using represents.chain_after_remove
  have order : arena.order.toList.filter (isLive (arena.remove handle).2.slots) =
      (before ++ prependLabels entry.labels after).map (·.1.index) := by
    have keepBefore : (before.map (·.1.index)).filter (fun index => decide (index ≠ handle.index)) =
        before.map (·.1.index) := by
      rw [List.filter_eq_self]
      intro index member
      obtain ⟨item, inBefore, rfl⟩ := List.mem_map.mp member
      simpa using represents.index_ne_of_mem_before item inBefore
    have keepAfter : (after.map (·.1.index)).filter (fun index => decide (index ≠ handle.index)) =
        after.map (·.1.index) := by
      rw [List.filter_eq_self]
      intro index member
      obtain ⟨item, inAfter, rfl⟩ := List.mem_map.mp member
      simpa using represents.index_ne_of_mem_after item inAfter
    rw [List.filter_congr fun index _ => represents.isLive_remove index,
      List.filter_congr fun index _ => Bool.and_comm _ _, ← List.filter_filter, represents.order,
      List.map_append, List.map_cons, List.filter_append, keepBefore, List.filter_cons,
      if_neg (by simp), keepAfter, List.map_append, map_index_prependLabels]
  have staysDead : ∀ index, isLive arena.slots index = false →
      isLive (arena.remove handle).2.slots index = false := by
    intro index dead
    rw [represents.isLive_remove, dead, Bool.false_and]
  have sameSize : (arena.remove handle).2.slots.size = arena.slots.size := by
    simp only [Arena.remove, represents.slot?_eq]
    cases lastIndex? before <;> cases firstIndex? after <;> simp
  have result := represents.update sameSize chain order staysDead
    (arena.remove handle).2.pending (arena.remove handle).2.trailing
  have sameArena : (⟨(arena.remove handle).2.slots, arena.order, arena.free,
      lastIndex? (before ++ prependLabels entry.labels after), (arena.remove handle).2.pending,
      (arena.remove handle).2.trailing⟩ : Arena) = (arena.remove handle).2 := by
    have tail := represents.tail
    simp only [Arena.remove, represents.slot?_eq]
    cases after with
    | nil => simp [prependLabels]
    | cons next rest =>
        simp [tail, lastIndex?, prependLabels, List.getLast?_append, List.getLast?_cons]
        cases rest.getLast? <;> rfl
  rwa [sameArena] at result

/-- The labels after the last instruction when an instruction is removed. -/
theorem trailing_remove :
    (arena.remove handle).2.trailing =
      if after = [] then entry.labels ++ arena.trailing else arena.trailing := by
  simp only [Arena.remove, represents.slot?_eq]
  cases after <;> simp

end Divided

/-- The slot that an instruction is put into was not in use, and is linked to the last one. -/
theorem push_eq
    (represents : arena.Represents live)
    (entry : Entry) :
    ∃ handle slots free,
      arena.push entry = (handle,
        ⟨slots, arena.order.push handle.index, free, some handle.index, [], arena.trailing⟩) ∧
      arena.slots.size ≤ slots.size ∧ handle.index < slots.size ∧
      isLive arena.slots handle.index = false ∧ handle.index ∉ arena.order ∧
      handle.index ∉ free ∧ free.Sublist arena.free ∧
      ∀ index, slots[index]? =
        if index = handle.index then
          some ⟨handle.generation, some { entry with labels := entry.labels ++ arena.pending },
            arena.tail, none⟩
        else if some index = arena.tail then
          arena.slots[index]?.map fun slot => { slot with next := some handle.index }
        else arena.slots[index]? := by
  obtain ⟨slots, order, free, tail, pending, trailing⟩ := arena
  have unused := represents.free
  have unusedNodup := represents.freeNodup
  have isTail := represents.tail
  have tailLive : ∀ index, tail = some index → isLive slots index = true := by
    intro index isIndex
    simp only at isTail
    rw [isTail] at isIndex
    obtain ⟨item, isLast, rfl⟩ := Option.map_eq_some_iff.mp isIndex
    obtain ⟨_, _, slot⟩ := represents.chain.slot_eq (List.mem_of_getLast? isLast)
    simp [isLive, slot]
  cases free with
  | nil =>
      have notLive : isLive slots slots.size = false := by simp [isLive]
      refine ⟨⟨slots.size, 0⟩, _, [], rfl, ?_, ?_, notLive, ?_, List.not_mem_nil,
        List.Sublist.refl _, ?_⟩
      · cases tail <;> simp
      · cases tail <;> simp
      · intro member
        exact Nat.lt_irrefl _ (represents.inRange _ member)
      · intro index
        cases tail with
        | none => simp [Array.getElem?_push]
        | some last =>
            have notNew : last ≠ slots.size := by
              rintro rfl
              rw [tailLive slots.size rfl] at notLive
              cases notLive
            simp only [Array.getElem?_modify, Array.getElem?_push]
            grind
  | cons index rest =>
      obtain ⟨inRange, notLive, notInOrder⟩ := unused index List.mem_cons_self
      refine ⟨⟨index, (slots[index]?.map Slot.generation).getD 0⟩, _, rest, rfl, ?_, ?_, notLive,
        notInOrder, (List.nodup_cons.mp unusedNodup).1, List.sublist_cons_self _ _, ?_⟩
      · cases tail <;> simp
      · cases tail <;> simpa using inRange
      · intro other
        cases tail with
        | none =>
            simp only [Array.getElem?_setIfInBounds]
            grind
        | some last =>
            have notNew : last ≠ index := by
              rintro rfl
              rw [tailLive last rfl] at notLive
              cases notLive
            simp only [Array.getElem?_modify, Array.getElem?_setIfInBounds]
            grind

/-- A new slot that is linked to the last one makes the chain longer. -/
theorem chain_push
    (represents : arena.Represents live)
    {handle : Handle} {entry : Entry}
    (newIndex : ∀ item ∈ live, item.1.index ≠ handle.index)
    (slot : ∀ index, slots[index]? =
      if index = handle.index then some ⟨handle.generation, some entry, arena.tail, none⟩
      else if some index = arena.tail then
        arena.slots[index]?.map fun slot => { slot with next := some handle.index }
      else arena.slots[index]?) :
    Chain slots none (live ++ [(handle, entry)]) none := by
  refine (chain_append _ _ _ _ _).mpr ⟨?_, ?_, trivial⟩
  · rcases List.eq_nil_or_concat live with rfl | ⟨init, last, rfl⟩
    · trivial
    · rw [List.concat_eq_append] at *
      obtain ⟨initChain, lastSlot, _⟩ := (chain_append _ _ _ _ _).mp represents.chain
      have isTail : arena.tail = some last.1.index := by
        rw [represents.tail, lastIndex?_concat]
      refine (chain_append _ _ _ _ _).mpr ⟨?_, ?_, trivial⟩
      · refine initChain.congr fun item member => ?_
        have notLast : item.1.index ≠ last.1.index := by
          have nodup := represents.indices_nodup
          rw [List.map_append] at nodup
          exact (List.nodup_append.mp nodup).2.2 _ (List.mem_map_of_mem member) _
            List.mem_cons_self
        rw [slot, if_neg (newIndex item (List.mem_append_left _ member)), isTail,
          if_neg (by simpa using notLast)]
      · rw [slot, if_neg (newIndex last (by simp)), isTail, if_pos rfl, lastSlot]
        simp
  · rw [slot, if_pos rfl, represents.tail]
    simp

/-- An instruction is appended with the pending labels. -/
theorem push
    (represents : arena.Represents live)
    (entry : Entry) :
    (arena.push entry).2.Represents
        (live ++ [((arena.push entry).1,
          { entry with labels := entry.labels ++ arena.pending })]) ∧
      (arena.push entry).2.pending = [] ∧ (arena.push entry).2.trailing = arena.trailing := by
  obtain ⟨handle, slots, free, pushed, grown, inRange, notLive, notInOrder, notFree, sublist,
    slot⟩ := represents.push_eq entry
  rw [pushed]
  have sameLive : ∀ index, index ≠ handle.index →
      isLive slots index = isLive arena.slots index := by
    intro index other
    unfold isLive
    rw [slot, if_neg other]
    split
    · cases arena.slots[index]? <;> rfl
    · rfl
  have newIndex : ∀ item ∈ live, item.1.index ≠ handle.index := by
    intro item member same
    obtain ⟨_, _, itemSlot⟩ := represents.chain.slot_eq member
    rw [← same] at notLive
    simp [isLive, itemSlot] at notLive
  refine ⟨⟨represents.chain_push newIndex slot, ?order, ?nodup, ?inRange, ?tail, ?free,
    represents.freeNodup.sublist sublist⟩, rfl, rfl⟩
  case order =>
    have stay : ∀ index ∈ arena.order.toList, isLive slots index = isLive arena.slots index := by
      intro index member
      apply sameLive
      rintro rfl
      exact notInOrder (Array.mem_toList_iff.mp member)
    have isNew : isLive slots handle.index = true := by simp [isLive, slot]
    rw [Array.toList_push, List.filter_append, List.filter_congr stay, represents.order,
      List.filter_cons, if_pos isNew]
    simp
  case nodup =>
    rw [Array.toList_push]
    refine List.nodup_append.mpr ⟨represents.nodup, List.nodup_singleton _, ?_⟩
    rintro index member other isNew rfl
    cases List.mem_singleton.mp isNew
    exact notInOrder (Array.mem_toList_iff.mp member)
  case inRange =>
    intro index member
    rcases Array.mem_push.mp member with earlier | rfl
    · exact Nat.lt_of_lt_of_le (represents.inRange index earlier) grown
    · exact inRange
  case tail => simp
  case free =>
    intro index member
    obtain ⟨bound, dead, absent⟩ := represents.free index (sublist.subset member)
    have other : index ≠ handle.index := fun same => notFree (same ▸ member)
    refine ⟨Nat.lt_of_lt_of_le bound grown, (sameLive index other).trans dead, ?_⟩
    intro inOrder
    rcases Array.mem_push.mp inOrder with earlier | same
    · exact absent earlier
    · exact other same

theorem isSome_liveSlot? (arena : Arena) (index : Nat) :
    (arena.liveSlot? index).isSome = isLive arena.slots index := by
  unfold liveSlot? isLive
  cases arena.slots[index]? with
  | none => rfl
  | some slot => cases entry : slot.entry <;> simp [entry]

/-- Compaction keeps the live instructions. -/
theorem compact (represents : arena.Represents live) : arena.compact.Represents live := by
  have freed : arena.compact.free =
      ((arena.order.filter fun index => !isLive arena.slots index).toList.reverse ++
        arena.free) := by
    simp only [Arena.compact, isSome_liveSlot?]
    rw [← Array.foldl_toList, List.foldl_flip_cons_eq_append, List.map_id']
  have kept : arena.compact.order = arena.order.filter (isLive arena.slots) := by
    simp only [Arena.compact, isSome_liveSlot?]
  refine ⟨represents.chain, ?_, ?_, ?_, represents.tail, ?_, ?_⟩
  · have sameSlots : arena.compact.slots = arena.slots := rfl
    rw [kept, sameSlots, Array.toList_filter, List.filter_filter]
    simpa using represents.order
  · rw [kept, Array.toList_filter]
    exact represents.nodup.filter _
  · intro index member
    rw [kept, Array.mem_filter] at member
    exact represents.inRange index member.1
  · intro index member
    rw [kept, Array.mem_filter]
    rw [freed, List.mem_append, List.mem_reverse, Array.mem_toList_iff, Array.mem_filter] at member
    rcases member with ⟨inOrder, dead⟩ | wasFree
    · have isDead : isLive arena.slots index = false := by simpa using dead
      refine ⟨represents.inRange index inOrder, isDead, ?_⟩
      rintro ⟨_, alive⟩
      rw [isDead] at alive
      cases alive
    · obtain ⟨bound, dead, absent⟩ := represents.free index wasFree
      exact ⟨bound, dead, fun inOrder => absent inOrder.1⟩
  · rw [freed]
    refine List.nodup_append.mpr ⟨?_, represents.freeNodup, ?_⟩
    · rw [List.nodup_reverse, Array.toList_filter]
      exact represents.nodup.filter _
    · rintro index member other wasFree rfl
      rw [List.mem_reverse, Array.mem_toList_iff, Array.mem_filter] at member
      exact (represents.free index wasFree).2.2 member.1

end Represents

/-- An arena without slots has no instructions. -/
theorem represents_empty : Represents {} [] where
  chain := trivial
  order := rfl
  nodup := List.nodup_nil
  inRange := by simp
  tail := rfl
  free := by simp
  freeNodup := List.nodup_nil

end Arena
end ScriptBytecode
