import Mathlib.Data.List.SplitBy
import ScriptBytecode.Proofs.LiftedCode

/-!
# Lifted operations by instruction

Grouped by address, the operations that code is lifted to are those of one instruction after the
other, and the end.
-/

namespace ScriptBytecode

/-! ## Groups of operations -/

namespace Instruction

variable {instruction : Instruction} {instructions : List Instruction}

/-- The lifted operations of an instruction; there are none if it cannot be lifted. -/
def group (natives : Array UInt64) (instruction : Instruction) : List LiftedOperation :=
  match instruction.operations natives with
  | .ok operations => operations.map (LiftedOperation.mk instruction.ip)
  | .error _ => []

variable {natives : Array UInt64}

theorem address_of_mem_group
    {operation : LiftedOperation}
    (member : operation ∈ instruction.group natives) :
    operation.address = instruction.ip := by
  unfold group at member
  split at member
  · obtain ⟨_, _, rfl⟩ := List.mem_map.mp member
    rfl
  · cases member

/-- A group that is not empty holds all of the operations. -/
theorem operations_of_group_ne_nil
    (notEmpty : instruction.group natives ≠ []) :
    instruction.operations natives =
      .ok ((instruction.group natives).map LiftedOperation.operation) := by
  cases answer : instruction.operations natives with
  | error error =>
      rw [group, answer] at notEmpty
      exact absurd rfl notEmpty
  | ok operations =>
      rw [group, answer, List.map_map]
      exact congrArg Except.ok (List.map_id operations).symm

/-- Instructions that are all lifted have groups, which make up the operations. -/
theorem group_of_liftedOf?
    {lifted : List LiftedOperation}
    (isLifted : liftedOf? natives instructions = some lifted) :
    lifted = (instructions.map (group natives)).flatten ∧
      ∀ instruction ∈ instructions, instruction.group natives ≠ [] := by
  induction instructions generalizing lifted with
  | nil =>
      cases isLifted
      exact ⟨rfl, List.forall_mem_nil _⟩
  | cons instruction rest ih =>
      obtain ⟨operations, isOperations, isLifted⟩ := Option.bind_eq_some_iff.mp isLifted
      obtain ⟨others, isOthers, isLifted⟩ := Option.bind_eq_some_iff.mp isLifted
      cases isLifted
      have isOk := toOption_eq_some_iff.mp isOperations
      have isGroup : instruction.group natives =
          operations.map (LiftedOperation.mk instruction.ip) := by
        rw [group, isOk]
      obtain ⟨rfl, later⟩ := ih isOthers
      refine ⟨by rw [List.map_cons, List.flatten_cons, isGroup], ?_⟩
      refine List.forall_mem_cons.mpr ⟨?_, later⟩
      rw [isGroup, Ne, List.map_eq_nil_iff]
      exact operations_ne_nil isOk

theorem Consecutive.ascending
    {start : Nat}
    (consecutive : Consecutive start instructions) :
    instructions.Pairwise fun first second => first.ip < second.ip := by
  induction instructions generalizing start with
  | nil => exact List.Pairwise.nil
  | cons instruction rest ih =>
      obtain ⟨-, later⟩ := consecutive
      refine List.Pairwise.cons ?_ (ih later)
      intro other member
      have behind := (later.bounds member).1
      have positive := instruction.size_pos
      unfold stop at behind
      omega

end Instruction

open Instruction

/-- Operations are divided by their addresses into groups with ascending addresses. -/
theorem splitBy_address_flatten
    {groups : List (List LiftedOperation)}
    (notEmpty : ∀ group ∈ groups, group ≠ [])
    (alike : ∀ group ∈ groups, ∀ first ∈ group, ∀ second ∈ group, first.address = second.address)
    (ascending : groups.Pairwise fun left right =>
      ∀ first ∈ left, ∀ second ∈ right, first.address < second.address) :
    groups.flatten.splitBy (fun first second => first.address == second.address) = groups := by
  apply List.splitBy_flatten
  · exact fun member => notEmpty [] member rfl
  · intro group member
    apply List.Pairwise.isChain
    apply List.pairwise_of_forall_mem_list
    intro first inGroup second alsoInGroup
    exact beq_iff_eq.mpr (alike group member first inGroup second alsoInGroup)
  · apply List.Pairwise.isChain
    refine ascending.imp_of_mem fun {left right} inGroups alsoInGroups before => ?_
    refine ⟨notEmpty left inGroups, notEmpty right alsoInGroups, ?_⟩
    rw [beq_eq_false_iff_ne]
    exact Nat.ne_of_lt (before _ (List.getLast_mem _) _ (List.head_mem _))

/-- Code is lifted to a group for each instruction of the walk, and one for the end. -/
theorem splitBy_address_of_lift
    {code : Bytes} {natives : Array UInt64} {lifted : Array LiftedOperation}
    (notEmpty : code ≠ #[])
    (isLifted : lift code natives = .ok lifted) :
    lifted.toList.splitBy (fun first second => first.address == second.address) =
      (walk code).instructions.toList.map (group natives) ++ [[⟨code.size, .endOfScript⟩]] := by
  obtain ⟨noFailure, operations, areOperations, isList⟩ := liftedOf?_of_lift notEmpty isLifted
  obtain ⟨rfl, groups⟩ := group_of_liftedOf? areOperations
  obtain ⟨consecutive, -, -, ends⟩ := Walk.divides code
  rw [noFailure] at ends
  have isFlat : lifted.toList = ((walk code).instructions.toList.map (group natives) ++
      [[LiftedOperation.mk code.size .endOfScript]]).flatten := by
    rw [isList, List.flatten_append, List.flatten_singleton]
  rw [isFlat]
  apply splitBy_address_flatten
  · intro members isGroup
    rcases List.mem_append.mp isGroup with inWalk | atEnd
    · obtain ⟨instruction, member, rfl⟩ := List.mem_map.mp inWalk
      exact groups instruction member
    · rw [List.mem_singleton.mp atEnd]
      exact List.cons_ne_nil _ _
  · intro members isGroup first isFirst second isSecond
    rcases List.mem_append.mp isGroup with inWalk | atEnd
    · obtain ⟨instruction, -, rfl⟩ := List.mem_map.mp inWalk
      rw [address_of_mem_group isFirst, address_of_mem_group isSecond]
    · cases List.mem_singleton.mp atEnd
      rw [List.mem_singleton.mp isFirst, List.mem_singleton.mp isSecond]
  · refine List.pairwise_append.mpr ⟨?_, List.pairwise_singleton _ _, ?_⟩
    · rw [List.pairwise_map]
      refine consecutive.ascending.imp fun ascends first isFirst second isSecond => ?_
      rw [address_of_mem_group isFirst, address_of_mem_group isSecond]
      exact ascends
    · intro members inWalk ending isEnding first isFirst second isSecond
      obtain ⟨instruction, member, rfl⟩ := List.mem_map.mp inWalk
      cases List.mem_singleton.mp isEnding
      have inside := (consecutive.bounds member).2
      rw [Nat.zero_add, ends] at inside
      rw [address_of_mem_group isFirst, List.mem_singleton.mp isSecond]
      exact inside

end ScriptBytecode
