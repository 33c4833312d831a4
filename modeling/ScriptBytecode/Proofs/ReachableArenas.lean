import ScriptBytecode.Proofs.ArenaSessions

/-!
# Reachable arenas

An arena that was made by calls and fusions in any order has its live instructions linked in program
order, however often its slots were used.  Fusing neither adds to the order nor makes a slot live,
and it does not touch the labels for the next instruction.
-/

namespace ScriptBytecode
namespace Arena

variable {arena : Arena} {live : List Live}

/-- The arena that a call leaves. -/
def afterCall (arena : Arena) : Call → Arena
  | .push entry => (arena.push entry).2
  | .addLabel label => arena.addLabel label
  | .close => arena.close
  | .remove handle => (arena.remove handle).2
  | .modify handle change => arena.modify handle change
  | .compact => arena.compact

/-- An arena that calls and fusions make of one without slots. -/
inductive Reachable : Arena → Prop
  | empty : Reachable {}
  | call {arena : Arena} (reachable : Reachable arena) (call : Call) :
      Reachable (arena.afterCall call)
  | fuse {arena : Arena} (reachable : Reachable arena) : Reachable arena.fuse.1

/-- Calls lead from reachable arenas to reachable ones. -/
theorem Reachable.calls
    (reachable : Reachable arena)
    (calls : List Call) :
    Reachable (calls.foldl afterCall arena) := by
  induction calls generalizing arena with
  | nil => exact reachable
  | cons call _ ih => exact ih (reachable.call call)

/-- Every slot that holds an instruction is in the order. -/
def Ordered (arena : Arena) : Prop :=
  ∀ index, isLive arena.slots index = true → index ∈ arena.order

theorem Represents.complete
    (represents : arena.Represents live)
    (ordered : arena.Ordered) :
    ∀ index, isLive arena.slots index = true → index ∈ live.map (·.1.index) := by
  intro index alive
  rw [← represents.order]
  exact List.mem_filter.mpr ⟨Array.mem_toList_iff.mpr (ordered index alive), alive⟩

/-! ## Arenas that lose instructions -/

/-- An arena that results from another one by changing and removing instructions. -/
structure Thins (arena thinned : Arena) : Prop where
  order : thinned.order = arena.order
  pending : thinned.pending = arena.pending
  live : ∀ index, isLive thinned.slots index = true → isLive arena.slots index = true

namespace Thins

variable {arena middle thinned : Arena} {slots : Array Slot} {place : Nat}

theorem refl (arena : Arena) : Thins arena arena :=
  ⟨rfl, rfl, fun _ alive => alive⟩

theorem trans
    (first : Thins arena middle)
    (second : Thins middle thinned) :
    Thins arena thinned :=
  ⟨second.order.trans first.order, second.pending.trans first.pending,
    fun index alive => first.live index (second.live index alive)⟩

theorem ordered
    (thins : Thins arena thinned)
    (isOrdered : arena.Ordered) :
    thinned.Ordered := by
  intro index alive
  rw [thins.order]
  exact isOrdered index (thins.live index alive)

theorem modify (arena : Arena) (handle : Handle) (change : Entry → Entry) :
    Thins arena (arena.modify handle change) :=
  ⟨rfl, rfl, fun index alive => (isLive_modify arena handle change index).symm.trans alive⟩

/-- A change that keeps a slot live or dead makes no slot live. -/
theorem isLive_modify_slot
    {change : Slot → Slot}
    (keeps : ∀ slot, (change slot).entry.isSome = slot.entry.isSome)
    (index : Nat) :
    isLive (slots.modify place change) index = isLive slots index := by
  unfold isLive
  rw [Array.getElem?_modify]
  split
  · cases slots[index]? with
    | none => rfl
    | some slot => exact keeps slot
  · rfl

/-- A slot that is put in place of another one is live only if it holds an instruction. -/
theorem isLive_of_isLive_set
    {dead : Slot}
    (isDead : dead.entry = none)
    {index : Nat}
    (alive : isLive (slots.setIfInBounds place dead) index = true) :
    isLive slots index = true := by
  unfold isLive at alive ⊢
  rw [Array.getElem?_setIfInBounds] at alive
  split_ifs at alive
  · simp [isDead] at alive
  · simp at alive
  · exact alive

theorem remove (arena : Arena) (handle : Handle) : Thins arena (arena.remove handle).2 := by
  refine ⟨?_, pending_remove arena handle, ?_⟩
  · unfold Arena.remove
    cases arena.slot? handle with
    | none => rfl
    | some found => cases next : found.1.next <;> simp [next]
  · intro index alive
    unfold Arena.remove at alive
    cases isFound : arena.slot? handle with
    | none => simpa [isFound] using alive
    | some found =>
        obtain ⟨⟨generation, held, previous, next⟩, entry⟩ := found
        rw [isFound] at alive
        -- The slots beside the removed one change, but stay live or dead.
        cases previous <;> cases next <;> simp only at alive
        all_goals
          repeat rw [isLive_modify_slot (by simp)] at alive
          exact isLive_of_isLive_set rfl alive

theorem applyFusion (arena : Arena) (first second : Handle) (fusion : Fusion) :
    Thins arena (arena.applyFusion first second fusion) := by
  cases fusion with
  | intoFirst bytes => exact (modify arena first _).trans (remove _ second)
  | intoSecond bytes => exact (modify arena second _).trans (remove _ first)
  | both firstBytes secondBytes => exact (modify arena first _).trans (modify _ second _)

theorem fusePass (arena : Arena) (steps position fusions : Nat) :
    Thins arena (arena.fusePass steps position fusions).1 := by
  induction steps generalizing arena position fusions with
  | zero => exact .refl arena
  | succ steps ih =>
      unfold Arena.fusePass
      split
      · split
        · exact ih arena (position + 1) fusions
        · split
          · exact .refl arena
          · split
            · exact (applyFusion arena _ _ _).trans (ih _ position (fusions + 1))
            · exact ih arena (position + 1) fusions
      · exact .refl arena

theorem fusePasses (arena : Arena) (stepsPerPass passes fusions : Nat) :
    Thins arena (arena.fusePasses stepsPerPass passes fusions).1 := by
  induction passes generalizing arena fusions with
  | zero => exact .refl arena
  | succ passes ih =>
      have onePass := fusePass arena stepsPerPass 0 0
      rcases passed : arena.fusePass stepsPerPass 0 0 with ⟨fused, made⟩
      rw [passed] at onePass
      simp only [Arena.fusePasses, passed]
      split
      · exact onePass
      · exact onePass.trans (ih fused (fusions + made))

end Thins

/-- Fusing an arena is thinning it and compacting what is left. -/
theorem exists_thins_fuse (arena : Arena) :
    ∃ thinned, Thins arena thinned ∧ arena.fuse.1 = thinned.compact := by
  have allPasses := Thins.fusePasses arena (arena.positions + arena.fusionBound)
    (arena.fusionBound + 1) 0
  rcases passed : arena.fusePasses (arena.positions + arena.fusionBound)
    (arena.fusionBound + 1) 0 with ⟨thinned, fusions⟩
  rw [passed] at allPasses
  exact ⟨thinned, allPasses, by simp only [fuse, passed]⟩

/-- Fusing leaves the labels for the next instruction. -/
theorem pending_fuse (arena : Arena) : arena.fuse.1.pending = arena.pending := by
  obtain ⟨thinned, thins, isFused⟩ := arena.exists_thins_fuse
  rw [isFused]
  exact thins.pending

/-! ## Steps and runs -/

theorem Ordered.compact
    (ordered : arena.Ordered) :
    arena.compact.Ordered := by
  intro index alive
  have isLiveSlot : (arena.liveSlot? index).isSome = true :=
    (Represents.isSome_liveSlot? arena index).trans alive
  exact Array.mem_filter.mpr ⟨ordered index alive, isLiveSlot⟩

theorem Ordered.fuse
    (ordered : arena.Ordered) :
    arena.fuse.1.Ordered := by
  obtain ⟨thinned, thins, isFused⟩ := arena.exists_thins_fuse
  rw [isFused]
  exact (thins.ordered ordered).compact

/-- A call keeps the live instructions linked in program order. -/
theorem Represents.afterCall
    (represents : arena.Represents live)
    (ordered : arena.Ordered)
    (call : Call) :
    (∃ others, (arena.afterCall call).Represents others) ∧ (arena.afterCall call).Ordered := by
  have listed : ∀ handle entry, arena.get? handle = some entry →
      ∃ before after, live = before ++ (handle, entry) :: after := fun handle entry found =>
    List.append_of_mem ((represents.get?_eq_some_iff (represents.complete ordered)).mp found)
  cases call with
  | push entry =>
      refine ⟨⟨_, (represents.push entry).1⟩, fun index alive => ?_⟩
      obtain ⟨handle, slots, free, pushed, -⟩ := represents.push_eq entry
      have inOrder : (arena.push entry).2.order = arena.order.push (arena.push entry).1.index := by
        rw [pushed]
      rw [Arena.afterCall, inOrder, Array.mem_push]
      rcases represents.isLive_push entry alive with isNew | wasAlive
      · exact .inr isNew
      · exact .inl (ordered index wasAlive)
  | addLabel label => exact ⟨⟨live, represents.relabel _ _⟩, ordered⟩
  | close => exact ⟨⟨live, represents.relabel _ _⟩, ordered⟩
  | compact => exact ⟨⟨live, represents.compact⟩, ordered.compact⟩
  | remove handle =>
      refine ⟨?_, (Thins.remove arena handle).ordered ordered⟩
      cases found : arena.get? handle with
      | none =>
          rw [Arena.afterCall, remove_of_get?_eq_none found]
          exact ⟨live, represents⟩
      | some entry =>
          obtain ⟨before, after, rfl⟩ := listed handle entry found
          exact ⟨_, represents.remove⟩
  | modify handle change =>
      refine ⟨?_, (Thins.modify arena handle change).ordered ordered⟩
      cases found : arena.get? handle with
      | none =>
          rw [Arena.afterCall, modify_of_get?_eq_none found]
          exact ⟨live, represents⟩
      | some entry =>
          obtain ⟨before, after, rfl⟩ := listed handle entry found
          exact ⟨_, represents.modify change⟩

/-- A reachable arena has its live instructions linked in program order. -/
theorem Reachable.exists_represents
    (reachable : Reachable arena) :
    ∃ live, arena.Represents live := by
  have ordered : (∃ live, arena.Represents live) ∧ arena.Ordered := by
    induction reachable with
    | empty => exact ⟨⟨[], represents_empty⟩, by simp [Ordered, isLive]⟩
    | call reachable call ih =>
        obtain ⟨⟨live, represents⟩, ordered⟩ := ih
        exact represents.afterCall ordered call
    | fuse reachable ih =>
        obtain ⟨⟨live, represents⟩, ordered⟩ := ih
        obtain ⟨others, fused, -, -⟩ := represents.fuse
        exact ⟨⟨others, fused⟩, ordered.fuse⟩
  exact ordered.1

end Arena
end ScriptBytecode
