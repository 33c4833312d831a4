import Mathlib.Logic.Relation
import ScriptBytecode.Proofs.ArenaLinks

/-!
# Fusing the instructions of an arena

Whatever the passes over an arena do, the instructions change only by fusions of two neighbours
between which no label stands.  The labels after the last instruction stay as they are.
-/

namespace ScriptBytecode
namespace Arena

/-- Two neighbouring instructions of a list are fused. -/
inductive FusionStep : List Entry → List Entry → Prop
  | intoFirst
      (before after : List Entry)
      {first second : Entry}
      {bytes : Bytes}
      (noLabel : second.labels = [])
      (found : Fusion.find? first.bytes second.bytes = some (.intoFirst bytes)) :
      FusionStep (before ++ first :: second :: after) (before ++ { first with bytes } :: after)
  | intoSecond
      (before after : List Entry)
      {first second : Entry}
      {bytes : Bytes}
      (noLabel : second.labels = [])
      (found : Fusion.find? first.bytes second.bytes = some (.intoSecond bytes)) :
      FusionStep (before ++ first :: second :: after)
        (before ++ { second with bytes, labels := first.labels } :: after)
  | both
      (before after : List Entry)
      {first second : Entry}
      {firstBytes secondBytes : Bytes}
      (noLabel : second.labels = [])
      (found : Fusion.find? first.bytes second.bytes = some (.both firstBytes secondBytes)) :
      FusionStep (before ++ first :: second :: after)
        (before ++ { first with bytes := firstBytes } ::
          { second with bytes := secondBytes } :: after)

/-- Any number of fusions. -/
abbrev FusionSteps : List Entry → List Entry → Prop :=
  Relation.ReflTransGen FusionStep

@[simp] theorem prependLabels_nil (live : List Live) : prependLabels [] live = live := by
  cases live <;> rfl

/-- An arena that results from another one by fusions. -/
def FusedFrom (fused arena : Arena) (live : List Live) : Prop :=
  ∃ others, fused.Represents others ∧
    FusionSteps (live.map Prod.snd) (others.map Prod.snd) ∧ fused.trailing = arena.trailing

namespace Represents

variable {arena : Arena} {live before after : List Live} {first second : Handle}
    {firstEntry secondEntry : Entry} {position : Nat}

theorem get?_eq
    {handle : Handle} {entry : Entry}
    (represents : arena.Represents (before ++ (handle, entry) :: after)) :
    arena.get? handle = some entry := by
  simp [get?, represents.slot?_eq]

/-- The second one of two neighbours seen as the head of the rest. -/
theorem shift
    (represents :
      arena.Represents (before ++ (first, firstEntry) :: (second, secondEntry) :: after)) :
    arena.Represents ((before ++ [(first, firstEntry)]) ++ (second, secondEntry) :: after) := by
  simpa using represents

theorem fusion?_eq_some
    (represents :
      arena.Represents (before ++ (first, firstEntry) :: (second, secondEntry) :: after))
    {fusion : Fusion}
    (found : arena.fusion? first second = some fusion) :
    secondEntry.labels = [] ∧ Fusion.find? firstEntry.bytes secondEntry.bytes = some fusion := by
  simpa [fusion?, represents.get?_eq, represents.shift.get?_eq] using found

/-- Carrying out a fusion of two neighbours fuses them in the list of live instructions. -/
theorem applyFusion
    (represents :
      arena.Represents (before ++ (first, firstEntry) :: (second, secondEntry) :: after))
    {fusion : Fusion}
    (found : arena.fusion? first second = some fusion) :
    ∃ others, (arena.applyFusion first second fusion).Represents others ∧
      FusionStep ((before ++ (first, firstEntry) :: (second, secondEntry) :: after).map Prod.snd)
        (others.map Prod.snd) ∧
      (arena.applyFusion first second fusion).trailing = arena.trailing := by
  obtain ⟨noLabel, isFusion⟩ := represents.fusion?_eq_some found
  cases fusion with
  | intoFirst bytes =>
      have changed := (represents.modify fun entry => { entry with bytes }).shift
      have removed := changed.remove
      have trailing := changed.trailing_remove
      rw [noLabel, prependLabels_nil] at removed
      refine ⟨_, removed, ?_, ?_⟩
      · simpa using FusionStep.intoFirst (before.map Prod.snd) (after.map Prod.snd) noLabel isFusion
      · simp only [noLabel, List.nil_append, ite_self] at trailing
        exact trailing
  | intoSecond bytes =>
      have changed := represents.shift.modify fun entry => { entry with bytes }
      rw [List.append_assoc] at changed
      have removed := changed.remove
      have trailing := changed.trailing_remove
      refine ⟨_, removed, ?_, ?_⟩
      · simpa [prependLabels, noLabel] using
          FusionStep.intoSecond (before.map Prod.snd) (after.map Prod.snd) noLabel isFusion
      · rw [if_neg (by simp)] at trailing
        exact trailing
  | both firstBytes secondBytes =>
      have firstChanged := (represents.modify fun entry =>
        { entry with bytes := firstBytes }).shift
      have changed := firstChanged.modify fun entry => { entry with bytes := secondBytes }
      refine ⟨_, changed, ?_, rfl⟩
      simpa using FusionStep.both (before.map Prod.snd) (after.map Prod.snd) noLabel isFusion

/-- A live position is that of one of the live instructions. -/
theorem divide_of_liveAt?
    (represents : arena.Represents live)
    (found : arena.liveAt? position = some first) :
    arena.order[position]? = some first.index ∧
      ∃ before entry after, live = before ++ (first, entry) :: after := by
  obtain ⟨index, atPosition, isLiveSlot⟩ := Option.bind_eq_some_iff.mp found
  have inOrder : index ∈ arena.order.toList :=
    Array.mem_toList_iff.mpr (Array.mem_of_getElem? atPosition)
  have alive : isLive arena.slots index = true := by
    rw [← isSome_liveSlot?, isLiveSlot]
    rfl
  have isIndex : index ∈ live.map (·.1.index) := by
    rw [← represents.order]
    exact List.mem_filter.mpr ⟨inOrder, alive⟩
  obtain ⟨⟨handle, entry⟩, member, rfl⟩ := List.mem_map.mp isIndex
  obtain ⟨before, after, rfl⟩ := List.append_of_mem member
  have sameHandle : arena.liveSlot? handle.index = some handle := by
    simp [liveSlot?, represents.slot_eq]
  rw [sameHandle] at isLiveSlot
  cases isLiveSlot
  exact ⟨atPosition, before, entry, after, rfl⟩

/-- The links from a live position lead to the next instruction, if there is one. -/
theorem nextLive?_eq
    (represents : arena.Represents (before ++ (first, firstEntry) :: after))
    (atPosition : arena.order[position]? = some first.index) :
    arena.nextLive? position = after.head?.map Prod.fst := by
  simp only [nextLive?, atPosition, represents.slot_eq, Option.bind_eq_bind, Option.bind_some]
  cases after with
  | nil => rfl
  | cons head rest =>
      obtain ⟨handle, entry⟩ := head
      have nextSlot := represents.shift.slot_eq
      have inRange := (Array.getElem?_eq_some_iff.mp nextSlot).1
      rw [firstIndex?_cons, Option.bind_some]
      cases size : arena.slots.size with
      | zero => omega
      | succ steps => simp [followLinks, nextSlot]

theorem cons_of_nextLive?
    (represents : arena.Represents (before ++ (first, firstEntry) :: after))
    (atPosition : arena.order[position]? = some first.index)
    (found : arena.nextLive? position = some second) :
    ∃ entry rest, after = (second, entry) :: rest := by
  rw [represents.nextLive?_eq atPosition] at found
  cases after with
  | nil => cases found
  | cons head rest =>
      cases found
      exact ⟨head.2, rest, rfl⟩

/-- What becomes of an arena in a pass. -/
theorem fusePass
    (represents : arena.Represents live)
    (steps position fusions : Nat) :
    (arena.fusePass steps position fusions).1.FusedFrom arena live := by
  induction steps generalizing arena live position fusions with
  | zero => exact ⟨live, represents, .refl, rfl⟩
  | succ steps ih =>
      unfold Arena.fusePass
      split
      · split
        · exact ih represents (position + 1) fusions
        · rename_i first isFirst
          split
          · exact ⟨live, represents, .refl, rfl⟩
          · rename_i second isSecond
            split
            · rename_i fusion found
              obtain ⟨atPosition, before, entry, after, rfl⟩ :=
                represents.divide_of_liveAt? isFirst
              obtain ⟨other, rest, rfl⟩ := represents.cons_of_nextLive? atPosition isSecond
              obtain ⟨middle, middleRepresents, once, sameTrailing⟩ :=
                represents.applyFusion found
              obtain ⟨others, othersRepresents, more, finalTrailing⟩ :=
                ih middleRepresents position (fusions + 1)
              exact ⟨others, othersRepresents, .head once more, finalTrailing.trans sameTrailing⟩
            · exact ih represents (position + 1) fusions
      · exact ⟨live, represents, .refl, rfl⟩

/-- What becomes of an arena in several passes. -/
theorem fusePasses
    (represents : arena.Represents live)
    (stepsPerPass passes fusions : Nat) :
    (arena.fusePasses stepsPerPass passes fusions).1.FusedFrom arena live := by
  induction passes generalizing arena live fusions with
  | zero => exact ⟨live, represents, .refl, rfl⟩
  | succ passes ih =>
      have onePass := represents.fusePass stepsPerPass 0 0
      rcases passed : arena.fusePass stepsPerPass 0 0 with ⟨fused, made⟩
      rw [passed] at onePass
      simp only [Arena.fusePasses, passed]
      split
      · exact onePass
      · obtain ⟨middle, middleRepresents, once, sameTrailing⟩ := onePass
        obtain ⟨others, othersRepresents, more, finalTrailing⟩ :=
          ih middleRepresents (fusions + made)
        exact ⟨others, othersRepresents, once.trans more, finalTrailing.trans sameTrailing⟩

/-- Fusing an arena changes its instructions only by fusions of neighbours. -/
theorem fuse (represents : arena.Represents live) : arena.fuse.1.FusedFrom arena live := by
  have allPasses := represents.fusePasses (arena.positions + arena.fusionBound)
    (arena.fusionBound + 1) 0
  rcases passed : arena.fusePasses (arena.positions + arena.fusionBound)
    (arena.fusionBound + 1) 0 with ⟨fused, fusions⟩
  rw [passed] at allPasses
  obtain ⟨others, othersRepresents, steps, sameTrailing⟩ := allPasses
  simp only [Arena.fuse, passed]
  exact ⟨others, othersRepresents.compact, steps, sameTrailing⟩

end Represents
end Arena
end ScriptBytecode
