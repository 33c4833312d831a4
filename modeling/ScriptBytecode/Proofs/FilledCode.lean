import ScriptBytecode.Proofs.PageLayout
import ScriptBytecode.Proofs.RelativeOperations

/-!
# Code with filler

Code is read as a list of effects, in which the filler of skipped page tails is left out.  Two
builds of the same functions place them differently, but their effects can be compared number by
number.  Control that enters filler is led on to the instruction behind it.
-/

namespace ScriptBytecode

open Instruction Statement Builder

/-- What an instruction does: an operation at its address, or nothing if it cannot be lifted. -/
structure Effect where
  address : Nat
  operation : Option Operation
deriving DecidableEq, Repr

namespace Instruction

/-- The effects of an instruction, in order. -/
def effects (natives : Array UInt64) (instruction : Instruction) : List Effect :=
  match instruction.operations natives with
  | .ok operations => operations.map fun operation => ⟨instruction.ip, some operation⟩
  | .error _ => [⟨instruction.ip, none⟩]

/-- Where control goes on behind an instruction of filler, which is a jump or a no-op. -/
def successor (instruction : Instruction) : Nat :=
  match instruction.operands with
  | .rel16 offset => jumpTarget instruction.ip offset
  | _ => instruction.stop

theorem address_of_mem_effects
    {natives : Array UInt64} {instruction : Instruction} {effect : Effect}
    (member : effect ∈ instruction.effects natives) :
    effect.address = instruction.ip := by
  unfold effects at member
  split at member
  · obtain ⟨_, _, rfl⟩ := List.mem_map.mp member
    rfl
  · cases List.mem_singleton.mp member
    rfl

theorem effects_ne_nil (natives : Array UInt64) (instruction : Instruction) :
    instruction.effects natives ≠ [] := by
  unfold effects
  split
  · rename_i lifted
    simpa using operations_ne_nil lifted
  · simp

end Instruction

/-- Code with its natives, and the addresses in it that belong to filler. -/
structure FilledCode where
  code : Bytes
  natives : Array UInt64
  inFiller : Nat → Bool

namespace FilledCode

/-- The instruction that control gets to from an address if it follows filler: its address, or
nothing if no instruction begins where control goes. -/
def follow (inFiller : Nat → Bool) : List Instruction → (address : Nat) → Option Nat
  | [], _ => none
  | instruction :: rest, address =>
    if instruction.ip = address then
      if inFiller address then follow inFiller rest instruction.successor else some address
    else follow inFiller rest address

section Effects

variable (filled : FilledCode)

/-- All instructions of the code. -/
def instructions : List Instruction :=
  (walk filled.code).instructions.toList

/-- The effects of the instructions that are no filler. -/
def effects : List Effect :=
  (filled.instructions.filter fun instruction => !filled.inFiller instruction.ip).flatMap
    (Instruction.effects filled.natives)

/-- The number of effects at addresses below another. -/
def effectsBelow (address : Nat) : Nat :=
  filled.effects.countP (·.address < address)

/-- The number of the effect that control gets to from an address if it follows filler. -/
def reached? (address : Nat) : Option Nat :=
  (follow filled.inFiller filled.instructions address).map filled.effectsBelow

/-- An instruction, filler or not, begins at an address. -/
def Begins (address : Nat) : Prop :=
  ∃ instruction ∈ filled.instructions, instruction.ip = address

end Effects

/-! ## Effects and lifted code -/

/-- The effect of a lifted operation. -/
def effectOf (lifted : LiftedOperation) : Effect :=
  ⟨lifted.address, some lifted.operation⟩

/-- The effects of instructions that can be lifted are their operations. -/
theorem flatMap_effects_of_liftedOf?
    {natives : Array UInt64} {instructions : List Instruction} {lifted : List LiftedOperation}
    (isLifted : liftedOf? natives instructions = some lifted) :
    instructions.flatMap (Instruction.effects natives) = lifted.map effectOf := by
  induction instructions generalizing lifted with
  | nil =>
      cases isLifted
      rfl
  | cons instruction rest ih =>
      obtain ⟨operations, isOperations, isLifted⟩ := Option.bind_eq_some_iff.mp isLifted
      obtain ⟨others, isOthers, isLifted⟩ := Option.bind_eq_some_iff.mp isLifted
      cases isLifted
      rw [toOption_eq_some_iff] at isOperations
      rw [List.flatMap_cons, ih isOthers, List.map_append, List.map_map,
        Instruction.effects, isOperations]
      rfl

/-- Leaving out instructions leaves out their effects. -/
theorem filter_flatMap_effects
    (natives : Array UInt64)
    (keep : Nat → Bool)
    (instructions : List Instruction) :
    (instructions.flatMap (Instruction.effects natives)).filter (keep ·.address) =
      (instructions.filter fun instruction => keep instruction.ip).flatMap
        (Instruction.effects natives) := by
  induction instructions with
  | nil => rfl
  | cons instruction rest ih =>
      rw [List.flatMap_cons, List.filter_append, ih, List.filter_cons]
      cases kept : keep instruction.ip with
      | true =>
          rw [if_pos rfl, List.flatMap_cons, List.filter_eq_self.mpr]
          intro effect member
          rw [address_of_mem_effects member, kept]
      | false =>
          rw [if_neg Bool.false_ne_true, List.filter_eq_nil_iff.mpr, List.nil_append]
          intro effect member
          rw [address_of_mem_effects member, kept]
          exact Bool.false_ne_true

/-- The effects of code that can be lifted are its operations without those in filler and without
the end. -/
theorem map_effectOf_of_lift
    {filled : FilledCode} {lifted : Array LiftedOperation}
    (isLifted : lift filled.code filled.natives = .ok lifted) :
    (lifted.pop.toList.filter fun operation => !filled.inFiller operation.address).map effectOf =
      filled.effects := by
  rcases eq_or_ne filled.code #[] with empty | notEmpty
  · rw [empty] at isLifted
    cases isLifted
    rw [effects, instructions, empty]
    rfl
  · obtain ⟨-, others, isOthers, isList⟩ := liftedOf?_of_lift notEmpty isLifted
    have keeps := filter_flatMap_effects filled.natives (fun address => !filled.inFiller address)
      filled.instructions
    rw [instructions, flatMap_effects_of_liftedOf? isOthers, List.filter_map] at keeps
    rw [Array.toList_pop, isList, List.dropLast_concat]
    exact keeps

/-! ## Following filler -/

section Follow

variable {inFiller : Nat → Bool}

/-- Instructions that begin elsewhere are passed over. -/
theorem follow_append_of_ne
    {left : List Instruction} {address : Nat}
    (elsewhere : ∀ instruction ∈ left, instruction.ip ≠ address)
    (right : List Instruction) :
    follow inFiller (left ++ right) address = follow inFiller right address := by
  induction left with
  | nil => rfl
  | cons instruction rest ih =>
      obtain ⟨here, others⟩ := List.forall_mem_cons.mp elsewhere
      rw [List.cons_append, follow, if_neg here, ih others]

/-- An instruction that is no filler is where control gets to. -/
theorem follow_of_mem
    {instructions : List Instruction} {instruction : Instruction}
    (member : instruction ∈ instructions)
    (noFiller : inFiller instruction.ip = false) :
    follow inFiller instructions instruction.ip = some instruction.ip := by
  induction instructions with
  | nil => cases member
  | cons head rest ih =>
      rw [follow]
      split
      · rw [noFiller, if_neg Bool.false_ne_true]
      · rename_i elsewhere
        rcases List.mem_cons.mp member with rfl | inRest
        · exact absurd rfl elsewhere
        · exact ih inRest

/-- Control runs through no-ops up to their end. -/
theorem follow_nops
    {start count : Nat}
    (isFiller : ∀ address, start ≤ address → address < start + count → inFiller address = true)
    (right : List Instruction)
    {instruction : Instruction}
    (member : instruction ∈ nops start count) :
    follow inFiller (nops start count ++ right) instruction.ip =
      follow inFiller right (start + count) := by
  induction count generalizing start instruction with
  | zero => cases member
  | succ count ih =>
      have rest := @ih (start + 1)
        fun address notBelow below => isFiller address (by omega) (by omega)
      have stop : start + (count + 1) = start + 1 + count := by omega
      rw [nops, List.cons_append, follow, stop]
      rcases List.mem_cons.mp member with rfl | inRest
      · rw [if_pos rfl, isFiller start (Nat.le_refl _) (by omega), if_pos rfl]
        change follow inFiller (nops (start + 1) count ++ right) (start + 1) = _
        cases count with
        | zero => rfl
        | succ count => exact rest List.mem_cons_self
      · have later := (Consecutive.bounds (consecutive_nops (start + 1) count) inRest).1
        rw [if_neg (by simp only; omega), rest inRest]

/-- Control that enters the filler of a page tail gets to the instruction behind it. -/
theorem follow_gapInstructions
    {codeSize : Nat} {bytes : Bytes}
    (isFiller : ∀ address, codeSize ≤ address → address < addressFor codeSize bytes →
      inFiller address = true)
    (small : addressFor codeSize bytes < 2 ^ 32)
    (right : List Instruction)
    {instruction : Instruction}
    (member : instruction ∈ gapInstructions codeSize bytes) :
    follow inFiller (gapInstructions codeSize bytes ++ right) instruction.ip =
      follow inFiller right (addressFor codeSize bytes) := by
  unfold gapInstructions at member ⊢
  split at member
  · rename_i crosses
    have place : addressFor codeSize bytes = nextPage codeSize := by
      rw [addressFor_eq, if_pos crosses]
      rfl
    have stop : codeSize + roomInPage codeSize = nextPage codeSize := by
      unfold roomInPage nextPage pageLength
      omega
    rw [place] at isFiller small ⊢
    rw [if_pos crosses]
    have fills := fillsPage_fillerInstructions small
    change instruction ∈ fillerInstructions codeSize (roomInPage codeSize) at member
    change follow inFiller (fillerInstructions codeSize (roomInPage codeSize) ++ right) _ = _
    generalize fillerInstructions codeSize (roomInPage codeSize) = filler at member fills
    cases fills with
    | noOps little =>
        rw [follow_nops (fun address notBelow below => isFiller address notBelow (by omega)) right
          member, stop]
    | jump offset enough leads =>
        have noOps := @follow_nops inFiller (codeSize + 3) (roomInPage codeSize - 3)
          (fun address notBelow below => isFiller address (by omega) (by omega)) right
        have noOpsStop : codeSize + 3 + (roomInPage codeSize - 3) = nextPage codeSize := by omega
        rw [noOpsStop] at noOps
        rw [List.cons_append, follow]
        rcases List.mem_cons.mp member with rfl | inNoOps
        · rw [if_pos rfl, isFiller codeSize (Nat.le_refl _) (by omega), if_pos rfl]
          change follow inFiller _ (jumpTarget codeSize offset) = _
          rw [leads, follow_append_of_ne]
          intro other isNoOp
          have bounds := Consecutive.bounds (consecutive_nops _ _) isNoOp
          rw [codeOf_nops, Array.size_replicate] at bounds
          omega
        · have bounds := Consecutive.bounds (consecutive_nops _ _) inNoOps
          rw [if_neg (by simp only; omega), noOps inNoOps]
  · cases member

end Follow

/-! ## Linked code -/

/-- Code in which placed statements stand between filler. -/
structure Links (filled : FilledCode) (functions : Array FunctionSymbols)
    (placements : List Placement) : Prop where
  laid : Placement.Laid 0 placements
  wellFormed : ∀ instruction ∈ Placement.linked functions placements, instruction.WellFormed
  code : filled.code = codeOf (Placement.linked functions placements)
  inFiller : filled.inFiller = inSkippedTail 0 (placements.map Placement.bytes)

end FilledCode

namespace Placement

variable {start : Nat} {placements : List Placement}

/-- Filler stands in the page tail that it fills. -/
theorem bounds_of_mem_gapInstructions
    {codeSize : Nat} {bytes : Bytes} {instruction : Instruction}
    (member : instruction ∈ gapInstructions codeSize bytes) :
    codeSize ≤ instruction.ip ∧ instruction.ip < addressFor codeSize bytes := by
  have bounds := Consecutive.bounds (consecutive_gapInstructions _ _) member
  rwa [codeOf_gapInstructions] at bounds

/-- A placement stands in no page tail that is skipped from the code before it on. -/
theorem inSkippedTail_ip
    (functions : Array FunctionSymbols)
    {placement : Placement}
    (placed : placement.address = addressFor placement.before placement.bytes)
    (rest : List Bytes) :
    inSkippedTail placement.before (placement.bytes :: rest)
      (placement.instruction functions).ip = false := by
  rw [ip_instruction, placed]
  exact inSkippedTail_addressFor placement.statement.size_fragment_pos _

/-- The instructions of linked code that are no filler are those of the placements. -/
theorem filter_linked
    (functions : Array FunctionSymbols)
    (laid : Laid start placements) :
    ((linked functions placements).filter fun instruction =>
        !inSkippedTail start (placements.map bytes) instruction.ip) =
      placements.map (instruction functions) := by
  induction placements generalizing start with
  | nil => rfl
  | cons placement rest ih =>
      obtain ⟨rfl, placed, _, _, later⟩ := laid
      have inGap : ((gapInstructions placement.before placement.bytes).filter fun instruction =>
          !inSkippedTail placement.before ((placement :: rest).map bytes) instruction.ip) = [] := by
        refine List.filter_eq_nil_iff.mpr fun instruction member => ?_
        have bounds := bounds_of_mem_gapInstructions member
        simp [inSkippedTail_before bounds.1 bounds.2]
      have others : ((linked functions rest).filter fun instruction =>
          !inSkippedTail placement.before ((placement :: rest).map bytes) instruction.ip) =
          rest.map (instruction functions) := by
        rw [← ih later]
        refine List.filter_congr fun instruction member => ?_
        have bounds := Consecutive.bounds (consecutive_linked functions later) member
        rw [List.map_cons, inSkippedTail_behind (placed ▸ bounds.1), placed]
      rw [linked, List.filter_append, inGap, List.nil_append, List.filter_cons, others,
        List.map_cons, inSkippedTail_ip functions placed]
      rfl

/-- Placements that follow each other stand at ascending addresses. -/
theorem Laid.address_lt_of_mem_tail
    {placement : Placement} {rest : List Placement}
    (laid : Laid start (placement :: rest)) :
    ∀ other ∈ rest, placement.address < other.address := by
  obtain ⟨_, _, _, _, later⟩ := laid
  intro other isOther
  have bounds := Consecutive.bounds (consecutive_linked #[] later)
    (instruction_mem_linked #[] isOther)
  have positive := placement.statement.size_fragment_pos
  rw [ip_instruction, bytes] at bounds
  omega

theorem Laid.pairwise_address_lt
    (laid : Laid start placements) :
    placements.Pairwise fun placement other => placement.address < other.address := by
  induction placements generalizing start with
  | nil => exact .nil
  | cons placement rest ih =>
      have here := laid.address_lt_of_mem_tail
      obtain ⟨_, _, _, _, later⟩ := laid
      exact .cons here (ih later)

/-- From every instruction of linked code, control gets to the first placement that is not before
it. -/
theorem exists_follow
    (functions : Array FunctionSymbols)
    (laid : Laid start placements)
    (small : ∀ placement ∈ placements, placement.address < 2 ^ 32)
    {inFiller : Nat → Bool}
    (isFiller : ∀ address, start ≤ address →
      inFiller address = inSkippedTail start (placements.map bytes) address)
    {instruction : Instruction}
    (member : instruction ∈ linked functions placements) :
    ∃ placement ∈ placements,
      FilledCode.follow inFiller (linked functions placements) instruction.ip =
          some placement.address ∧
        ∀ other ∈ placements, other.address < placement.address ↔
          other.address < instruction.ip := by
  induction placements generalizing start with
  | nil => cases member
  | cons placement rest ih =>
      have ascending := laid.address_lt_of_mem_tail
      obtain ⟨rfl, placed, _, _, later⟩ := laid
      obtain ⟨smallHere, smallRest⟩ := List.forall_mem_cons.mp small
      have here : inFiller (placement.instruction functions).ip = false := by
        rw [ip_instruction, placed, isFiller _ (le_addressFor _ _), ← placed,
          ← placement.ip_instruction functions]
        exact inSkippedTail_ip functions placed _
      -- No placement is before the first one, and what leads to it is not behind it.
      have isFirst : ∀ address ≤ placement.address, ∀ other ∈ placement :: rest,
          other.address < placement.address ↔ other.address < address := by
        intro address notBehind other isOther
        have notBefore : placement.address ≤ other.address := by
          rcases List.mem_cons.mp isOther with rfl | inRest
          · exact Nat.le_refl _
          · exact Nat.le_of_lt (ascending other inRest)
        omega
      rcases List.mem_append.mp member with inGap | notInGap
      · have bounds := bounds_of_mem_gapInstructions inGap
        refine ⟨placement, List.mem_cons_self, ?_, isFirst _ (by omega)⟩
        rw [linked, FilledCode.follow_gapInstructions _ (placed ▸ smallHere) _ inGap, ← placed,
          ← placement.ip_instruction functions]
        · exact FilledCode.follow_of_mem List.mem_cons_self here
        · intro address notBelow below
          rw [isFiller address notBelow]
          exact inSkippedTail_before notBelow below _
      · rcases List.mem_cons.mp notInGap with rfl | inRest
        · rw [FilledCode.follow_of_mem member here, ip_instruction]
          exact ⟨placement, List.mem_cons_self, rfl, isFirst _ (Nat.le_refl _)⟩
        · have bounds := Consecutive.bounds (consecutive_linked functions later) inRest
          have positive := placement.statement.size_fragment_pos
          have behind : placement.address < instruction.ip := by
            unfold bytes at bounds
            omega
          have restFiller : ∀ address, placement.address + placement.bytes.size ≤ address →
              inFiller address = inSkippedTail (placement.address + placement.bytes.size)
                (rest.map bytes) address := by
            intro address notBelow
            have notBefore := le_addressFor placement.before placement.bytes
            rw [isFiller address (by omega), List.map_cons,
              inSkippedTail_behind (placed ▸ notBelow), placed]
          obtain ⟨target, isTarget, follows, earlier⟩ :=
            ih later smallRest restFiller inRest
          refine ⟨target, List.mem_cons_of_mem _ isTarget, ?_, ?_⟩
          · rw [linked, FilledCode.follow_append_of_ne, FilledCode.follow, if_neg, follows]
            · rw [ip_instruction]
              omega
            · intro other inGap
              have := bounds_of_mem_gapInstructions inGap
              omega
          · refine List.forall_mem_cons.mpr ⟨?_, earlier⟩
            have := ascending target isTarget
            omega

/-- The effects of a placed statement. -/
def effects (natives : Array UInt64) (functions : Array FunctionSymbols) (placement : Placement) :
    List Effect :=
  (placement.instruction functions).effects natives

/-- Effects stand at the addresses of placements. -/
theorem exists_of_mem_effects
    {functions : Array FunctionSymbols} {natives : Array UInt64} {effect : Effect}
    (member : effect ∈ placements.flatMap (effects natives functions)) :
    ∃ placement ∈ placements, effect.address = placement.address := by
  obtain ⟨placement, isPlacement, isEffect⟩ := List.mem_flatMap.mp member
  exact ⟨placement, isPlacement,
    (address_of_mem_effects isEffect).trans (placement.ip_instruction functions)⟩

end Placement

namespace FilledCode.Links

variable {filled : FilledCode} {functions : Array FunctionSymbols} {placements : List Placement}

variable (links : filled.Links functions placements)

include links

theorem instructions_eq :
    filled.instructions = Placement.linked functions placements := by
  rw [instructions, links.code,
    walk_codeOf links.wellFormed (Placement.consecutive_linked functions links.laid)]

/-- The effects of linked code are those of the placements. -/
theorem effects_eq :
    filled.effects = placements.flatMap (Placement.effects filled.natives functions) := by
  rw [effects, links.instructions_eq, links.inFiller, Placement.filter_linked functions links.laid,
    List.flatMap_map]
  rfl

/-- Control that goes to a placement gets to the first of its effects. -/
theorem reached?_address
    {placement : Placement}
    (member : placement ∈ placements) :
    filled.reached? placement.address = some (filled.effectsBelow placement.address) := by
  have kept := List.mem_map_of_mem (f := Placement.instruction functions) member
  rw [← Placement.filter_linked functions links.laid, ← links.inFiller, ← links.instructions_eq,
    List.mem_filter, Bool.not_eq_true'] at kept
  have follows := follow_of_mem kept.1 kept.2
  rw [Placement.ip_instruction] at follows
  rw [reached?, follows, Option.map_some]

/-- The first effect of a placement has as many effects before it as there are below. -/
theorem exists_effect
    {placement : Placement}
    (member : placement ∈ placements) :
    ∃ effect, filled.effects[filled.effectsBelow placement.address]? = some effect ∧
      effect.address = placement.address := by
  obtain ⟨before, after, rfl⟩ := List.append_of_mem member
  obtain ⟨-, inOrder, earlier⟩ := List.pairwise_append.mp links.laid.pairwise_address_lt
  obtain ⟨later, -⟩ := List.pairwise_cons.mp inOrder
  obtain ⟨effect, others, isEffects⟩ := List.exists_cons_of_ne_nil
    (effects_ne_nil filled.natives (placement.instruction functions))
  have isAddress : effect.address = placement.address :=
    (address_of_mem_effects (isEffects ▸ List.mem_cons_self)).trans (placement.ip_instruction _)
  have allEarlier : (before.flatMap (Placement.effects filled.natives functions)).countP
      (·.address < placement.address) =
        (before.flatMap (Placement.effects filled.natives functions)).length := by
    refine List.countP_eq_length.mpr fun other isOther => ?_
    obtain ⟨place, isPlace, isHere⟩ := Placement.exists_of_mem_effects isOther
    simpa [isHere] using earlier place isPlace placement List.mem_cons_self
  have noneLater : ((placement :: after).flatMap
      (Placement.effects filled.natives functions)).countP (·.address < placement.address) = 0 := by
    refine List.countP_eq_zero.mpr fun other isOther => ?_
    obtain ⟨place, isPlace, isHere⟩ := Placement.exists_of_mem_effects isOther
    have notEarlier : placement.address ≤ place.address := by
      rcases List.mem_cons.mp isPlace with rfl | inRest
      · exact Nat.le_refl _
      · exact Nat.le_of_lt (later place inRest)
    simpa [isHere] using notEarlier
  refine ⟨effect, ?_, isAddress⟩
  rw [effectsBelow, links.effects_eq, List.flatMap_append, List.countP_append, allEarlier,
    noneLater, Nat.add_zero, List.getElem?_append_right (Nat.le_refl _), Nat.sub_self,
    List.flatMap_cons, Placement.effects, isEffects]
  rfl

/-- Control gets from an address to an effect exactly if an instruction begins there and the effects
before are those below the address.  Addresses of code are 32-bit words. -/
theorem reached?_eq_some_iff
    (fits : filled.code.size ≤ 2 ^ 32)
    (address number : Nat) :
    filled.reached? address = some number ↔
      filled.Begins address ∧ filled.effectsBelow address = number := by
  have consecutive := Placement.consecutive_linked functions links.laid
  have small : ∀ placement ∈ placements, placement.address < 2 ^ 32 := by
    intro placement member
    have bounds := consecutive.bounds (Placement.instruction_mem_linked functions member)
    rw [Placement.ip_instruction, ← links.code] at bounds
    omega
  by_cases begins : filled.Begins address
  · obtain ⟨instruction, member, rfl⟩ := begins
    rw [links.instructions_eq] at member
    obtain ⟨placement, isPlacement, follows, earlier⟩ :=
      Placement.exists_follow functions links.laid small
        (fun address _ => congrFun links.inFiller address) member
    have sameBelow : filled.effectsBelow placement.address =
        filled.effectsBelow instruction.ip := by
      refine List.countP_congr fun effect isEffect => ?_
      obtain ⟨other, isOther, isAddress⟩ :=
        Placement.exists_of_mem_effects (links.effects_eq ▸ isEffect)
      simpa [isAddress] using earlier other isOther
    rw [← links.instructions_eq] at follows member
    rw [reached?, follows, Option.map_some, sameBelow, Option.some.injEq]
    exact (and_iff_right ⟨instruction, member, rfl⟩).symm
  · have elsewhere : ∀ instruction ∈ filled.instructions, instruction.ip ≠ address :=
      fun instruction member isHere => begins ⟨instruction, member, isHere⟩
    have nowhere := @follow_append_of_ne filled.inFiller _ _ elsewhere []
    rw [List.append_nil, follow] at nowhere
    rw [reached?, nowhere, Option.map_none]
    simp [begins]

end FilledCode.Links

/-- The code of a finished session is linked from its placements. -/
theorem Builder.Finished.links
    {steps : List BuildStep} {builder : Builder} {result : LinkedCode}
    (finished : Finished steps builder result)
    (natives : Array UInt64) :
    FilledCode.Links ⟨result.pages.flatten, natives,
        inSkippedTail 0 ((Placement.ofSteps "" 0 steps).map Placement.bytes)⟩
      builder.functions (Placement.ofSteps "" 0 steps) :=
  ⟨finished.laid, finished.wellFormed, finished.flatten_pages, rfl⟩

end ScriptBytecode
