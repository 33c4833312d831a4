import ScriptBytecode.Proofs.EmittedStreams
import ScriptBytecode.Proofs.FilledCode
import ScriptBytecode.Proofs.FusedMeaning
import ScriptBytecode.Proofs.FusedStreams
import ScriptBytecode.Proofs.ResolvedNames

/-!
# Offsets are kept

Fusing keeps the offsets of jumps and switches that are given by numbers, whatever it makes of the
instructions between them and their targets.  Fused code has the operations of the code without
fusing, one for one, and a target by a number moves by as many bytes as its instruction does.
-/

namespace ScriptBytecode

open Instruction Builder

/-! ## Targets by offsets -/

/-- The target that is as far from a new place as another one is from an old place. -/
def movedTarget (old new target : Nat) : Nat :=
  wrapAddress ((target : Int) + new - old)

theorem movedTarget_wrapAddress
    {old new : Nat} {target moved : Int}
    (sameDistance : target - old = moved - new) :
    movedTarget old new (wrapAddress target) = wrapAddress moved := by
  unfold movedTarget wrapAddress
  omega

namespace Operation

/-- Whether the targets of an operation are given relative to its instruction. -/
def isRelative : Operation → Bool
  | .jump _ | .jumpIfZero _ | .switch _ => true
  | _ => false

/-- The targets of an operation. -/
def targets : Operation → List Nat
  | .jump target | .jumpIfZero target | .call target => [target]
  | .switch cases => cases.map Prod.snd
  | _ => []

/-- An operation whose instruction is at an address and has the given offsets for its targets. -/
def placedAt (address : Nat) (offsets : List Int) : Operation → Operation
  | .jump _ => .jump (wrapAddress (address + 3 + offsets.headD 0))
  | .jumpIfZero _ => .jumpIfZero (wrapAddress (address + 3 + offsets.headD 0))
  | .switch cases => .switch (cases.mapIdx fun index (value, _) =>
      (value, wrapAddress (address + (2 + 6 * index) + 6 + offsets.getD index 0)))
  | operation => operation

theorem isRelative_mapTargets (change : Nat → Nat) (operation : Operation) :
    (operation.mapTargets change).isRelative = operation.isRelative := by
  cases operation <;> rfl

section PlacedAt

variable {operation : Operation}

theorem placedAt_mapTargets
    (relative : operation.isRelative = true)
    (change : Nat → Nat)
    (address : Nat)
    (offsets : List Int) :
    (operation.mapTargets change).placedAt address offsets =
      operation.placedAt address offsets := by
  cases operation with
  | jump target => rfl
  | jumpIfZero target => rfl
  | switch cases =>
      refine congrArg switch (List.ext_getElem? fun index => ?_)
      simp only [List.getElem?_map, List.getElem?_mapIdx, Option.map_map]
      rfl
  | _ => cases relative

/-- Placing an operation elsewhere moves its targets along. -/
theorem mapTargets_placedAt
    (relative : operation.isRelative = true)
    (old new : Nat)
    (offsets : List Int) :
    (operation.placedAt old offsets).mapTargets (movedTarget old new) =
      operation.placedAt new offsets := by
  cases operation with
  | jump target => exact congrArg jump (movedTarget_wrapAddress (by omega))
  | jumpIfZero target => exact congrArg jumpIfZero (movedTarget_wrapAddress (by omega))
  | switch cases =>
      refine congrArg switch (List.ext_getElem? fun index => ?_)
      simp only [List.getElem?_map, List.getElem?_mapIdx, Option.map_map]
      congr 1
      funext case
      exact congrArg _ (movedTarget_wrapAddress (by omega))
  | _ => cases relative

end PlacedAt

/-- An operation without a target is the same everywhere. -/
theorem Targetless.placedAt_eq
    {operation : Operation}
    (targetless : operation.Targetless)
    (address : Nat)
    (offsets : List Int) :
    operation.placedAt address offsets = operation := by
  cases operation with
  | jump target =>
      have moved := targetless (· + 1)
      simp [mapTargets] at moved
  | jumpIfZero target =>
      have moved := targetless (· + 1)
      simp [mapTargets] at moved
  | switch cases =>
      cases cases with
      | nil => rfl
      | cons case rest =>
          have moved := targetless (· + 1)
          simp [mapTargets, Prod.ext_iff] at moved
  | _ => rfl

end Operation

/-! ## Items and effects -/

/-- The operation of an effect without its targets. -/
def Effect.bare (effect : Effect) : Option Operation :=
  effect.operation.map (·.mapTargets fun _ => 0)

/-- An effect carries out an item of a stream.  If the targets of the item are operands as they
stand, the targets of the effect are those that these offsets lead to. -/
inductive Carries : StreamItem → Effect → Prop
  | operation
      {operation : Operation}
      {targets : List StreamTarget}
      {address : Nat}
      (byOffsets : ∀ offsets : List Int, targets = offsets.map .raw →
        operation.placedAt address offsets = operation) :
      Carries (.operation (operation.mapTargets fun _ => 0) targets) ⟨address, some operation⟩
  | unlifted (error : Error) (address : Nat) : Carries (.unlifted error) ⟨address, none⟩

theorem Carries.of_bare
    {operation bare : Operation}
    (isBare : operation.mapTargets (fun _ => 0) = bare)
    {targets : List StreamTarget} {address : Nat}
    (byOffsets : ∀ offsets : List Int, targets = offsets.map .raw →
      operation.placedAt address offsets = operation) :
    Carries (.operation bare targets) ⟨address, some operation⟩ :=
  isBare ▸ .operation byOffsets

namespace Instruction

/-- The items of an instruction with the given targets. -/
def items (natives : Array UInt64) (targets : List StreamTarget) (instruction : Instruction) :
    List StreamItem :=
  match instruction.operations natives with
  | .error error => [.unlifted error]
  | .ok operations => operations.map (Operation.item targets)

/-- Without its targets, a switch has only the values of its cases. -/
theorem mapTargets_switchCases (ip : Nat) (cases : List (UInt32 × Int16)) :
    (Operation.switch ((switchCases ip cases).map fun (_, value, _, target) =>
      (value.toInt32.toInt, target))).mapTargets (fun _ => 0) =
      .switch ((cases.map Prod.fst).map fun value => (value.toInt32.toInt, 0)) := by
  refine congrArg Operation.switch (List.ext_getElem? fun index => ?_)
  simp only [switchCases, List.getElem?_map, List.getElem?_mapIdx, Option.map_map]
  rfl

/-- A jump is a jump operation behind the operations of its comparison. -/
theorem exists_operations_rel16
    {opcode : Opcode}
    (layout : opcode.layout = .rel16) :
    ∃ (comparisons : List Operation) (jump : Nat → Operation),
      (jump = .jump ∨ jump = .jumpIfZero) ∧
        (∀ operation ∈ comparisons, operation.Targetless) ∧
        ∀ natives ip offset, (⟨ip, opcode, .rel16 offset⟩ : Instruction).operations natives =
          .ok (comparisons ++ [jump (jumpTarget ip offset)]) := by
  rcases Statement.jump_opcode_cases layout with rfl | rfl | isCompare
  · exact ⟨[], .jump, .inl rfl, by simp, fun _ _ _ => rfl⟩
  · exact ⟨[], .jumpIfZero, .inr rfl, by simp, fun _ _ _ => rfl⟩
  · obtain ⟨compare, isCompare, notAddress, notArith, notInt, notFloat, targetless⟩ := isCompare
    refine ⟨[compare], .jumpIfZero, .inr rfl, List.forall_mem_singleton.mpr targetless, ?_⟩
    intro natives ip offset
    simp [operations, notAddress, notArith, notInt, notFloat, isCompare]

section Carries

variable (natives : Array UInt64) {targets : List StreamTarget}

/-- The effects of an instruction carry out the items of another one with the same operations if no
target depends on where the instruction stands. -/
theorem forall₂_carries_of_fixed
    {instruction other : Instruction}
    (same : (instruction.operations natives).toOption = (other.operations natives).toOption)
    (fixed : ∀ operations, other.operations natives = .ok operations →
      ∀ operation ∈ operations, ∀ offsets, operation.placedAt other.ip offsets = operation) :
    List.Forall₂ Carries (instruction.items natives targets) (other.effects natives) := by
  unfold items effects
  cases isOther : other.operations natives with
  | error error =>
      rw [isOther] at same
      cases isHere : instruction.operations natives with
      | error error => exact .cons (.unlifted error other.ip) .nil
      | ok operations =>
          rw [isHere] at same
          cases same
  | ok operations =>
      rw [isOther] at same
      rw [toOption_eq_some_iff.mp same]
      simp only [List.forall₂_map_left_iff, List.forall₂_map_right_iff, List.forall₂_same]
      exact fun operation member => .operation fun offsets _ =>
        fixed operations isOther operation member offsets

theorem forall₂_carries_rel16
    {opcode : Opcode}
    (layout : opcode.layout = .rel16)
    (blank offset : Int16)
    (byOffset : ∀ offsets : List Int, targets = offsets.map .raw →
      offsets.headD 0 = offset.toInt)
    (address : Nat) :
    List.Forall₂ Carries ((⟨0, opcode, .rel16 blank⟩ : Instruction).items natives targets)
      ((⟨address, opcode, .rel16 offset⟩ : Instruction).effects natives) := by
  obtain ⟨comparisons, jump, isJump, targetless, lifts⟩ := exists_operations_rel16 layout
  simp only [items, effects, lifts, List.map_append, List.map_cons, List.map_nil]
  refine List.rel_append ?_ (.cons ?_ .nil)
  · simp only [List.forall₂_map_left_iff, List.forall₂_map_right_iff, List.forall₂_same]
    exact fun operation member =>
      .operation fun offsets _ => (targetless operation member).placedAt_eq address offsets
  · rcases isJump with rfl | rfl
    all_goals
      refine .of_bare ?_ fun offsets isRaw => ?_
      · simp only [Operation.mapTargets]
      · rw [Operation.placedAt, byOffset offsets isRaw, jumpTarget]

theorem forall₂_carries_switch
    {blanks cases : List (UInt32 × Int16)}
    (sameValues : blanks.map Prod.fst = cases.map Prod.fst)
    (byOffsets : ∀ offsets : List Int, targets = offsets.map .raw →
      offsets = cases.map fun case => case.2.toInt)
    (address : Nat) :
    List.Forall₂ Carries ((⟨0, .switch, .switch blanks⟩ : Instruction).items natives targets)
      ((⟨address, .switch, .switch cases⟩ : Instruction).effects natives) := by
  refine .cons (.of_bare ?_ fun offsets isRaw => ?_) .nil
  · rw [mapTargets_switchCases, mapTargets_switchCases, sameValues]
  · refine congrArg Operation.switch (List.ext_getElem? fun index => ?_)
    simp only [switchCases, List.getElem?_map, List.getElem?_mapIdx, Option.map_map,
      byOffsets offsets isRaw]
    cases found : cases[index]? with
    | none => rfl
    | some case => simp [found, caseTarget]

end Carries
end Instruction

namespace Statement

variable {statement : Statement} {offsets : List Int}

/-- The items of a statement in a stream. -/
def items (natives : Array UInt64) (statement : Statement) : List StreamItem :=
  (Line.entry ([], statement)).items natives

/-- The instruction of a statement stands in the entry of its line. -/
theorem holds_blank
    (encodable : statement.Encodable)
    (labels : List String) :
    (Line.entry (labels, statement)).Holds (statement.blank 0) := by
  refine ⟨⟨blank_wellFormed encodable 0, ip_resolved ..⟩, (bytes_blank 0 statement).symm, ?_⟩
  cases statement with
  | plain opcode operands => simp [Line.entry, fragment]
  | jump opcode label => simp [Line.entry, fragment, blank, resolved, targetOperands]
  | call function => simp [Line.entry, fragment, blank, resolved, targetOperands]
  | switch cases =>
      intro reference member
      obtain ⟨index, found⟩ := List.getElem?_of_mem member
      rw [Line.entry, fragment, List.getElem?_mapIdx] at found
      obtain ⟨case, isCase, rfl⟩ := Option.map_eq_some_iff.mp found
      apply List.mem_of_getElem? (i := index)
      simp [blank, resolved, targetOperands, getElem?_resolvedCases, isCase, caseReference]

theorem items_eq
    (encodable : statement.Encodable)
    (natives : Array UInt64) :
    statement.items natives = (statement.blank 0).items natives
      ((statement.blank 0).streamTargets statement.fragment.references) := by
  have holds := holds_blank encodable []
  simp only [items, Entry.items, Instruction.items, holds.bytes, holds.single.decode_bytes]
  rfl

/-- Without a jump or a switch, no target depends on where an instruction stands. -/
theorem placedAt_of_mem_operations
    {instruction : Instruction}
    (layout : instruction.operands.layout = instruction.opcode.layout)
    (noJump : instruction.opcode.layout ≠ .rel16)
    (noSwitch : instruction.opcode.layout ≠ .switch)
    {natives : Array UInt64} {operations : List Operation}
    (lifted : instruction.operations natives = .ok operations) :
    ∀ operation ∈ operations, ∀ address offsets,
      operation.placedAt address offsets = operation := by
  intro operation member address offsets
  by_cases isCall : instruction.opcode = .call
  · obtain ⟨ip, opcode, operands⟩ := instruction
    cases isCall
    cases operands with
    | u24 target =>
        cases lifted
        cases List.mem_singleton.mp member
        rfl
    | _ => cases layout
  · exact (operations_targetless noJump noSwitch isCall layout lifted operation
      member).placedAt_eq address offsets

/-- The targets of a plain statement are its operands as they stand. -/
theorem streamTargets_plain (opcode : Opcode) (operands : Operands) :
    ((plain opcode operands).blank 0).streamTargets (plain opcode operands).fragment.references =
      (((plain opcode operands).blank 0).targetOperands.map Prod.snd).map .raw := by
  simp [streamTargets, fragment]

theorem offsets_of_streamTargets_plain
    {opcode : Opcode} {operands : Operands}
    (areRaw : ((plain opcode operands).blank 0).streamTargets
      (plain opcode operands).fragment.references = offsets.map .raw) :
    ((plain opcode operands).blank 0).targetOperands.map Prod.snd = offsets := by
  have injective : ∀ left right, StreamTarget.raw left = .raw right → left = right :=
    fun _ _ same => StreamTarget.raw.inj same
  rw [streamTargets_plain] at areRaw
  exact (List.map_inj_right injective).mp areRaw

/-- The cases of a switch with labels have names for targets. -/
theorem eq_nil_of_streamTargets_switch
    {cases : List (UInt32 × String)}
    (areRaw : ((switch cases).blank 0).streamTargets (switch cases).fragment.references =
      offsets.map .raw) :
    cases = [] ∧ offsets = [] := by
  cases cases with
  | nil => exact ⟨rfl, List.map_eq_nil_iff.mp areRaw.symm⟩
  | cons case rest =>
      have first := congrArg List.head? areRaw
      cases offsets <;> simp [streamTargets, blank, resolved, resolvedCases, targetOperands,
        fragment, caseReference] at first

/-- The effects of a linked statement carry out its items. -/
theorem forall₂_carries
    (encodable : statement.Encodable)
    (natives : Array UInt64)
    (address : Nat)
    (labelOperand : Nat → String → Int16)
    (functionOperand : String → UInt32) :
    List.Forall₂ Carries (statement.items natives)
      ((statement.resolved address labelOperand functionOperand).effects natives) := by
  rw [items_eq encodable]
  cases statement with
  | plain opcode operands =>
      have layout : operands.layout = opcode.layout := encodable.emittable.layout
      by_cases isJump : opcode.layout = .rel16
      · cases operands with
        | rel16 offset =>
            refine forall₂_carries_rel16 natives isJump offset offset (fun offsets areRaw => ?_)
              address
            rw [← offsets_of_streamTargets_plain areRaw]
            rfl
        | _ => cases layout.trans isJump
      · by_cases isSwitch : opcode.layout = .switch
        · cases Opcode.eq_of_layout_switch isSwitch
          cases operands with
          | switch cases =>
              refine forall₂_carries_switch natives rfl (fun offsets areRaw => ?_) address
              rw [← offsets_of_streamTargets_plain areRaw]
              refine List.ext_getElem? fun index => ?_
              simp only [blank, resolved, targetOperands, Operands.stored, List.getElem?_map,
                List.getElem?_mapIdx, Option.map_map]
              rfl
          | _ => cases layout
        · have storedLayout : operands.stored.layout = opcode.layout := by simpa using layout
          refine forall₂_carries_of_fixed natives (operations_at opcode operands.stored
            (storedLayout ▸ isJump) (storedLayout ▸ isSwitch) 0 address) ?_
          intro operations lifted operation member
          exact placedAt_of_mem_operations storedLayout isJump isSwitch lifted operation member
            address
  | jump opcode label =>
      refine forall₂_carries_rel16 natives encodable.emittable.layout 0 _ (fun offsets areRaw => ?_)
        address
      cases offsets with
      | nil => cases areRaw
      | cons offset others => cases (List.cons.inj areRaw).1
  | call function =>
      refine .cons (.of_bare ?_ fun _ _ => ?_) .nil
      · rfl
      · rfl
  | switch cases =>
      refine forall₂_carries_switch natives ?_ (fun offsets areRaw => ?_) address
      · refine List.ext_getElem? fun index => ?_
        simp only [List.getElem?_map, getElem?_resolvedCases, Option.map_map]
        rfl
      · obtain ⟨rfl, rfl⟩ := eq_nil_of_streamTargets_switch areRaw
        rfl

/-- A statement whose targets are offsets: a jump or a switch by numbers, or a switch without
cases. -/
def ByOffsets : Statement → Prop
  | .plain opcode _ => opcode.layout = .rel16 ∨ opcode.layout = .switch
  | .switch cases => cases = []
  | _ => False

/-- A jump or switch by offsets has an item with these offsets for targets. -/
theorem exists_item_of_byOffsets
    (encodable : statement.Encodable)
    (byOffsets : statement.ByOffsets)
    (natives : Array UInt64) :
    ∃ (index : Nat) (bare : Operation) (offsets : List Int),
      (statement.items natives)[index]? = some (.operation bare (offsets.map .raw)) ∧
        bare.isRelative = true := by
  rw [items_eq encodable]
  cases statement with
  | plain opcode operands =>
      have layout : operands.layout = opcode.layout := encodable.emittable.layout
      rw [streamTargets_plain]
      rcases byOffsets with isJump | isSwitch
      · cases operands with
        | rel16 offset =>
            obtain ⟨comparisons, jump, isJump, _, lifts⟩ := exists_operations_rel16 isJump
            refine ⟨comparisons.length, jump 0, [offset.toInt], ?_, ?_⟩
            · simp only [blank, resolved, Operands.stored, Instruction.items, lifts]
              rcases isJump with rfl | rfl <;>
                simp [Operation.item, Operation.mapTargets, Operation.hasTargets, targetOperands]
            · rcases isJump with rfl | rfl <;> rfl
        | _ => cases layout.trans isJump
      · cases Opcode.eq_of_layout_switch isSwitch
        cases operands with
        | switch cases => exact ⟨0, _, _, rfl, rfl⟩
        | _ => cases layout
  | switch cases =>
      cases byOffsets
      exact ⟨0, _, [], rfl, rfl⟩
  | jump opcode label => cases byOffsets
  | call function => cases byOffsets

end Statement

namespace Carries

variable {bare : Operation} {effect : Effect}

theorem exists_operation
    {targets : List StreamTarget}
    (carries : Carries (.operation bare targets) effect) :
    ∃ operation, effect.operation = some operation ∧
      operation.mapTargets (fun _ => 0) = bare ∧
      ∀ offsets : List Int, targets = offsets.map .raw →
        operation.placedAt effect.address offsets = operation := by
  cases carries with
  | operation byOffsets => exact ⟨_, rfl, rfl, byOffsets⟩

/-- Two effects that carry out the same item by offsets differ in their targets as they do in their
addresses. -/
theorem moved
    {offsets : List Int} {other : Effect}
    (here : Carries (.operation bare (offsets.map .raw)) effect)
    (there : Carries (.operation bare (offsets.map .raw)) other)
    (relative : bare.isRelative = true) :
    ∃ operation, effect.operation = some operation ∧ operation.isRelative = true ∧
      other.operation =
        some (operation.mapTargets (movedTarget effect.address other.address)) := by
  obtain ⟨operation, isHere, rfl, placed⟩ := here.exists_operation
  obtain ⟨changed, isThere, sameBare, placedThere⟩ := there.exists_operation
  have isRelative : operation.isRelative = true := by
    rwa [Operation.isRelative_mapTargets] at relative
  have changedRelative : changed.isRelative = true := by
    rwa [← sameBare, Operation.isRelative_mapTargets] at relative
  refine ⟨operation, isHere, isRelative, ?_⟩
  rw [isThere, Option.some.injEq]
  calc changed
      = changed.placedAt other.address offsets := (placedThere offsets rfl).symm
    _ = (changed.mapTargets fun _ => 0).placedAt other.address offsets :=
        (Operation.placedAt_mapTargets changedRelative _ _ _).symm
    _ = operation.placedAt other.address offsets := by
        rw [sameBare, Operation.placedAt_mapTargets isRelative]
    _ = (operation.placedAt effect.address offsets).mapTargets
          (movedTarget effect.address other.address) :=
        (Operation.mapTargets_placedAt isRelative _ _ _).symm
    _ = operation.mapTargets (movedTarget effect.address other.address) := by
        rw [placed offsets rfl]

/-- Effects that carry out the same items have the same operations apart from their targets. -/
theorem map_bare_eq
    {items : List StreamItem} {effects others : List Effect}
    (carries : List.Forall₂ Carries items effects)
    (othersCarry : List.Forall₂ Carries items others) :
    others.map Effect.bare = effects.map Effect.bare := by
  induction carries generalizing others with
  | nil =>
      cases othersCarry
      rfl
  | @cons item effect items effects carriesItem _ ih =>
      cases othersCarry with
      | @cons _ other _ _ otherCarries later =>
          have sameBare : other.bare = effect.bare := by
            cases item with
            | operation bare targets =>
                obtain ⟨operation, isOperation, isBare, -⟩ := carriesItem.exists_operation
                obtain ⟨changed, isChanged, sameBare, -⟩ := otherCarries.exists_operation
                simp only [Effect.bare, isOperation, isChanged, Option.map_some, isBare, sameBare]
            | label name => cases carriesItem
            | unlifted error =>
                cases carriesItem
                cases otherCarries
                rfl
          rw [List.map_cons, List.map_cons, sameBare, ih later]

end Carries

/-! ## Fusing -/

/-- Whether an item is a label. -/
def StreamItem.isLabel : StreamItem → Bool
  | .label _ => true
  | _ => false

/-- Without its labels, the stream of instructions is made of their items. -/
theorem filter_flatMap_stream (natives : Array UInt64) (entries : List Entry) :
    (entries.flatMap (Entry.stream natives)).filter (fun item => !item.isLabel) =
      entries.flatMap (Entry.items natives) := by
  have labels : ∀ names : List String,
      (names.map StreamItem.label).filter (fun item => !item.isLabel) = [] := by
    intro names
    exact List.filter_eq_nil_iff.mpr (List.forall_mem_map.mpr fun _ _ => Bool.false_ne_true)
  have items : ∀ entry : Entry,
      (entry.items natives).filter (fun item => !item.isLabel) = entry.items natives := by
    intro entry
    refine List.filter_eq_self.mpr ?_
    unfold Entry.items
    split
    · exact List.forall_mem_singleton.mpr rfl
    · split
      · exact List.forall_mem_singleton.mpr rfl
      · exact List.forall_mem_map.mpr fun _ _ => rfl
  rw [List.filter_flatMap]
  congr 1
  funext entry
  rw [Entry.stream, List.filter_append, labels, items, List.nil_append]

/-- Fusing keeps the items of a function. -/
theorem FunctionCode.HasLines.flatMap_items_fuse
    {function : FunctionCode} {lines newLines : List Line}
    (hasLines : function.HasLines lines)
    (encodable : ∀ line ∈ lines, line.2.Encodable)
    (fusedHasLines : (CodeUnit.fuseFunction function).HasLines newLines)
    (natives : Array UInt64) :
    (newLines.map Prod.snd).flatMap (Statement.items natives) =
      (lines.map Prod.snd).flatMap (Statement.items natives) := by
  have fusedEntries := fusedHasLines.entries_eq
  obtain ⟨live, represents, isLines⟩ := hasLines
  obtain ⟨others, fusedRepresents, fusion, -⟩ := represents.fuse
  have isNew : others.map Prod.snd = newLines.map Line.entry := by
    rw [← fusedEntries]
    exact (congrArg Array.toList fusedRepresents.entries_eq).symm
  rw [isLines, isNew] at fusion
  have wellFormed : ∀ entry ∈ lines.map Line.entry, entry.WellFormed :=
    List.forall_mem_map.mpr fun line member =>
      (Statement.holds_blank (encodable line member) line.1).wellFormed
  have kept := (Arena.FusionSteps.keepsStream fusion wellFormed).stream natives
  have keptItems := congrArg (List.filter fun item => !item.isLabel) kept
  rw [filter_flatMap_stream, filter_flatMap_stream, List.flatMap_map, List.flatMap_map] at keptItems
  rw [List.flatMap_map, List.flatMap_map]
  exact keptItems

/-- Functions are placed after fusing by calls with the same items. -/
theorem Places.exists_fuse
    {functions : List FunctionCode} {calls : List BuildCall}
    (places : Places functions calls) :
    ∃ fusedCalls, Places (functions.map CodeUnit.fuseFunction) fusedCalls ∧
      ∀ natives, (fusedCalls.filterMap BuildCall.statement?).flatMap (Statement.items natives) =
        (calls.filterMap BuildCall.statement?).flatMap (Statement.items natives) := by
  induction places with
  | nil => exact ⟨[], .nil, fun _ => rfl⟩
  | cons hasLines encodable _ ih =>
      obtain ⟨others, placesOthers, same⟩ := ih
      obtain ⟨newLines, newHasLines, fused, -⟩ := hasLines.fuse encodable
      refine ⟨_, .cons newHasLines fused.encodable placesOthers, fun natives => ?_⟩
      simp only [List.filterMap_append, filterMap_statement?_functionCalls, List.flatMap_append,
        hasLines.flatMap_items_fuse encodable newHasLines natives, same natives]

namespace FilledCode.Links

variable {filled : FilledCode} {functions : Array FunctionSymbols} {placements : List Placement}

theorem encodable (links : filled.Links functions placements) :
    ∀ placement ∈ placements, placement.statement.Encodable := by
  intro placement member
  obtain ⟨-, emittable, fewCases⟩ := links.laid.of_mem member
  exact ⟨emittable, fewCases⟩

/-- The effects of linked code carry out the items of its statements. -/
theorem forall₂_carries (links : filled.Links functions placements) :
    List.Forall₂ Carries
      ((placements.map Placement.statement).flatMap (Statement.items filled.natives))
      filled.effects := by
  have encodable := links.encodable
  rw [links.effects_eq]
  clear links
  induction placements with
  | nil => exact .nil
  | cons placement rest ih =>
      obtain ⟨here, others⟩ := List.forall_mem_cons.mp encodable
      exact List.rel_append (Statement.forall₂_carries here ..) (ih others)

/-- An item of a placed statement is carried out at the address of the placement. -/
theorem exists_effect_of_item
    (links : filled.Links functions placements)
    {placement : Placement}
    (member : placement ∈ placements)
    {index : Nat} {item : StreamItem}
    (found : (placement.statement.items filled.natives)[index]? = some item) :
    ∃ (number : Nat) (effect : Effect),
      ((placements.map Placement.statement).flatMap (Statement.items filled.natives))[number]? =
          some item ∧
        filled.effects[number]? = some effect ∧ effect.address = placement.address ∧
        Carries item effect := by
  have encodable := links.encodable
  rw [links.effects_eq]
  clear links
  induction placements with
  | nil => cases member
  | cons head rest ih =>
      obtain ⟨here, others⟩ := List.forall_mem_cons.mp encodable
      have carries : List.Forall₂ Carries (head.statement.items filled.natives)
          (head.effects filled.natives functions) :=
        Statement.forall₂_carries here ..
      rw [List.map_cons, List.flatMap_cons, List.flatMap_cons]
      rcases List.mem_cons.mp member with rfl | inRest
      · obtain ⟨effect, isEffect, carriesItem⟩ := Listing.exists_getElem?_of_forall₂ carries found
        refine ⟨index, effect, ?_, ?_, ?_, carriesItem⟩
        · rw [List.getElem?_append_left (List.getElem?_eq_some_iff.mp found).1, found]
        · rw [List.getElem?_append_left (List.getElem?_eq_some_iff.mp isEffect).1, isEffect]
        · exact (address_of_mem_effects (List.mem_of_getElem? isEffect)).trans
            (placement.ip_instruction functions)
      · obtain ⟨number, effect, isItem, isEffect, known⟩ := ih inRest others
        refine ⟨(head.statement.items filled.natives).length + number, effect, ?_, ?_, known⟩
        · rw [List.getElem?_append_right (Nat.le_add_right _ _), Nat.add_sub_cancel_left, isItem]
        · rw [carries.length_eq, List.getElem?_append_right (Nat.le_add_right _ _),
            Nat.add_sub_cancel_left, isEffect]

end FilledCode.Links

/-! ## Listings -/

namespace Listing

/-- Whether an address of the code of a listing lies in filler. -/
def inFiller (listing : Listing) (fuse : Bool) (address : Nat) : Bool :=
  match writeFunctions listing.config.natives listing.functions {} with
  | .ok () codeUnit => codeUnit.inFiller fuse address
  | .error _ _ => false

/-- The code of an assembled listing, and the filler in it. -/
def filled (listing : Listing) (fuse : Bool) (script : Script) : FilledCode :=
  ⟨script.code, script.natives, listing.inFiller fuse⟩

/-- An item of a function is a jump or a switch with numbers for targets. -/
inductive ListsOffsets (functions : List Function) (function index : Nat) : Prop
  | jump
      {opcode : Opcode}
      {text : String}
      {value : Int}
      (lists : Lists functions function index opcode [text])
      (layout : opcode.layout = .rel16)
      (isInteger : Text.integer? text = some value)
  | switch
      {texts : List String}
      (lists : Lists functions function index .switch texts)
      (integers : ∀ text ∈ texts, ∀ target, targetText? text = some target →
        Text.integer? target ≠ none)

/-- A listed instruction of a function begins at an address of the code without fusing. -/
def StartsItem (functions : List Function) (function target : Nat) : Prop :=
  ∃ index remark mnemonic texts,
    item? functions function index = some (.instruction remark mnemonic texts) ∧
      address functions function index = target

/-- What fusing makes of the targets that are given by numbers. -/
structure KeepsOffsets (functions : List Function) (plain fused : FilledCode) : Prop where
  /-- The effects of code that can be lifted are its operations outside of filler. -/
  lifted : ∀ filled ∈ [plain, fused], ∀ lifted, lift filled.code filled.natives = .ok lifted →
    (lifted.pop.toList.filter fun operation => !filled.inFiller operation.address).map
      FilledCode.effectOf = filled.effects
  /-- There are the same operations in the same order, apart from their targets. -/
  operations : fused.effects.map Effect.bare = plain.effects.map Effect.bare
  /-- A listed instruction is reached at its first effect. -/
  starts : ∀ function target, StartsItem functions function target →
    plain.reached? target = some (plain.effectsBelow target) ∧
      plain.effects[plain.effectsBelow target]?.map Effect.address = some target
  /-- The targets of a jump or a switch by numbers move with it.  One that was the start of an item
  leads to the same operation as before exactly if an instruction begins where it leads, with as
  many operations before it as the item had. -/
  offsets : ∀ function index, ListsOffsets functions function index →
    ∃ (number place : Nat) (operation : Operation),
      plain.effects[number]? = some ⟨address functions function index, some operation⟩ ∧
      operation.isRelative = true ∧
      fused.effects[number]? = some ⟨place, some (operation.mapTargets
        (movedTarget (address functions function index) place))⟩ ∧
      ∀ target ∈ operation.targets, StartsItem functions function target →
        fused.code.size ≤ 2 ^ 32 →
          (fused.reached? (movedTarget (address functions function index) place target) =
              plain.reached? target ↔
            fused.Begins (movedTarget (address functions function index) place target) ∧
              fused.effectsBelow (movedTarget (address functions function index) place target) =
                plain.effectsBelow target)

section Session

variable {steps : List BuildStep} {builder : Builder} {linked : LinkedCode}
  {functions : List Function} {function index : Nat}

/-- A jump or a switch by numbers is placed as a statement with offsets. -/
theorem exists_placement_of_listsOffsets
    (finished : Finished steps builder linked)
    (session : SessionOf functions steps)
    (lists : ListsOffsets functions function index) :
    ∃ placement ∈ Placement.ofSteps "" 0 steps,
      placement.address = address functions function index ∧
        placement.statement.ByOffsets := by
  cases lists with
  | jump lists layout isInteger =>
      obtain ⟨_, placement, order, -, member, -, atAddress, reads, asRead⟩ :=
        exists_placement_of_lists finished session lists
      obtain ⟨offset, -, rfl⟩ := exists_offset_of_readOperands layout isInteger reads
      exact ⟨placement, member, atAddress, asRead _ rfl ▸ .inl layout⟩
  | switch lists integers =>
      obtain ⟨_, placement, order, -, member, -, atAddress, reads, asRead⟩ :=
        exists_placement_of_lists finished session lists
      obtain ⟨statement, rfl, readAs⟩ := switchReadAs_of_readOperands reads
      refine ⟨placement, member, atAddress, asRead _ rfl ▸ ?_⟩
      cases readAs with
      | offsets cases areCases => exact .inr rfl
      | labels cases areCases named =>
          rcases named with rfl | ⟨case, isCase, notInteger⟩
          · rfl
          · obtain ⟨number, found⟩ := List.getElem?_of_mem isCase
            obtain ⟨text, isText, isTarget⟩ := exists_getElem?_of_forall₂ areCases.flip found
            exact absurd notInteger (integers text (List.mem_of_getElem? isText) case.2 isTarget)

end Session

/-- Assembled code is linked from the placements of a session that makes the calls which place the
functions. -/
theorem exists_links
    {listing : Listing} {codeUnit : CodeUnit}
    (wrote : writeFunctions listing.config.natives listing.functions {} = .ok () codeUnit)
    {fuse : Bool} {code : UnitCode}
    (isFinished : codeUnit.finish fuse = .ok code)
    {calls : List BuildCall}
    (places : Places (codeUnit.placedFunctions fuse) calls)
    (strings : Paged UInt8) :
    ∃ steps builder linked, Finished steps builder linked ∧ steps.map Prod.fst = calls ∧
      (listing.filled fuse (listing.config.script strings code)).natives = codeUnit.natives ∧
      (listing.filled fuse (listing.config.script strings code)).Links builder.functions
        (Placement.ofSteps "" 0 steps) := by
  obtain ⟨steps, builder, linked, finished, isCalls, rfl⟩ :=
    CodeUnit.exists_finished isFinished places.placedBy
  have inFiller : listing.inFiller fuse =
      inSkippedTail 0 ((Placement.ofSteps "" 0 steps).map Placement.bytes) := by
    funext address
    rw [Listing.inFiller, wrote, Placement.map_bytes_ofSteps, isCalls, places.placedBy.bytes]
    rfl
  refine ⟨steps, builder, linked, finished, isCalls, rfl, ?_⟩
  rw [filled, inFiller]
  exact finished.links _

section Links

variable {steps : List BuildStep} {builder : Builder} {linked : LinkedCode}
  {functions : List Function} {plain fused : FilledCode} {items : List StreamItem}

theorem reached?_of_startsItem
    (finished : Finished steps builder linked)
    (session : SessionOf functions steps)
    (links : plain.Links builder.functions (Placement.ofSteps "" 0 steps))
    {function target : Nat}
    (starts : StartsItem functions function target) :
    plain.reached? target = some (plain.effectsBelow target) ∧
      plain.effects[plain.effectsBelow target]?.map Effect.address = some target := by
  obtain ⟨index, remark, mnemonic, texts, isItem, rfl⟩ := starts
  obtain ⟨_, placement, -, member, -, atAddress, -⟩ :=
    exists_placement_of_item finished session isItem
  obtain ⟨effect, isEffect, isAddress⟩ := links.exists_effect member
  rw [← atAddress, isEffect]
  exact ⟨links.reached?_address member, congrArg some isAddress⟩

/-- Code that is linked from the same items keeps the offsets of a listing. -/
theorem keepsOffsets_of_links
    (finished : Finished steps builder linked)
    (session : SessionOf functions steps)
    (links : plain.Links builder.functions (Placement.ofSteps "" 0 steps))
    {symbols : Array FunctionSymbols} {placements : List Placement}
    (fusedLinks : fused.Links symbols placements)
    (sameItems : (placements.map Placement.statement).flatMap (Statement.items fused.natives) =
      ((Placement.ofSteps "" 0 steps).map Placement.statement).flatMap
        (Statement.items plain.natives)) :
    KeepsOffsets functions plain fused := by
  have fusedCarries := fusedLinks.forall₂_carries
  rw [sameItems] at fusedCarries
  refine ⟨fun filled _ lifted isLifted => FilledCode.map_effectOf_of_lift isLifted,
    Carries.map_bare_eq links.forall₂_carries fusedCarries,
    fun function target => reached?_of_startsItem finished session links, ?_⟩
  intro function index lists
  obtain ⟨placement, member, atAddress, byOffsets⟩ :=
    exists_placement_of_listsOffsets finished session lists
  obtain ⟨inStatement, bare, offsets, isItem, relative⟩ :=
    Statement.exists_item_of_byOffsets (links.encodable placement member) byOffsets plain.natives
  obtain ⟨number, ⟨source, operation⟩, itemHere, isEffect, isAddress, here⟩ :=
    links.exists_effect_of_item member isItem
  obtain rfl : source = address functions function index := isAddress.trans atAddress
  obtain ⟨⟨place, changed⟩, isFused, there⟩ := exists_getElem?_of_forall₂ fusedCarries itemHere
  obtain ⟨operation, rfl, isRelative, isMoved⟩ := here.moved there relative
  simp only at isMoved
  subst isMoved
  refine ⟨number, place, operation, isEffect, isRelative, isFused, ?_⟩
  intro target _ starts fits
  rw [(reached?_of_startsItem finished session links starts).1]
  exact fusedLinks.reached?_eq_some_iff fits _ _

end Links

/-- Fusing keeps the offsets of jumps and switches by numbers. -/
theorem keepsOffsets_of_assemble
    {listing : Listing} {plain fused : Script}
    (plainAssembled : listing.assemble false = .ok plain)
    (fusedAssembled : listing.assemble true = .ok fused) :
    KeepsOffsets listing.functions (listing.filled false plain) (listing.filled true fused) := by
  obtain ⟨codeUnit, strings, plainCode, wrote, -, plainFinished, rfl⟩ :=
    assemble_eq_ok_iff.mp plainAssembled
  obtain ⟨other, otherStrings, fusedCode, wroteOther, -, fusedFinished, rfl⟩ :=
    assemble_eq_ok_iff.mp fusedAssembled
  rw [wrote] at wroteOther
  cases wroteOther
  obtain ⟨calls, places, session⟩ := exists_places (forall₂_of_writeFunctions wrote)
  obtain ⟨fusedCalls, fusedPlaces, sameItems⟩ := places.exists_fuse
  rw [← Array.toList_map] at fusedPlaces
  obtain ⟨steps, builder, linked, finished, isCalls, plainNatives, links⟩ :=
    exists_links wrote plainFinished places strings
  obtain ⟨fusedSteps, fusedBuilder, fusedLinked, -, fusedIsCalls, fusedNatives, fusedLinks⟩ :=
    exists_links wrote fusedFinished fusedPlaces otherStrings
  refine keepsOffsets_of_links finished (session steps isCalls) links fusedLinks ?_
  rw [Placement.map_statement_ofSteps, Placement.map_statement_ofSteps, isCalls, fusedIsCalls,
    plainNatives, fusedNatives]
  exact sameItems codeUnit.natives

/-- A listing with a jump by a number that a comparison is fused into, behind a sum that becomes
shorter. -/
def offsetAfterSum : Listing where
  config := { name := "after" }
  functions :=
    [⟨"main", 0,
      [.instruction none "PUSH_CONST_U8" ["5"], .instruction none "IADD" [],
        .instruction none "IEQ" [], .instruction none "JZ" ["1"], .instruction none "NOP" [],
        .instruction none "LEAVE" ["0", "0"]]⟩]

/-- The jump and its target both move by two bytes, so it still leads to the end of the function. -/
theorem keepsOffsets_of_assemble_offsetAfterSum :
    ∃ plain fused, offsetAfterSum.assemble false = .ok plain ∧
      offsetAfterSum.assemble true = .ok fused ∧
      (offsetAfterSum.filled false plain).effects[3]? = some ⟨4, some (.jumpIfZero 8)⟩ ∧
      (offsetAfterSum.filled true fused).effects[3]? = some ⟨2, some (.jumpIfZero 6)⟩ ∧
      (offsetAfterSum.filled false plain).reached? 8 = some 5 ∧
      (offsetAfterSum.filled true fused).reached? 6 = some 5 ∧
      KeepsOffsets offsetAfterSum.functions (offsetAfterSum.filled false plain)
        (offsetAfterSum.filled true fused) := by
  have plainKnown : (offsetAfterSum.assemble false).toOption.map (fun script =>
      ((offsetAfterSum.filled false script).effects[3]?,
        (offsetAfterSum.filled false script).reached? 8)) =
      some (some ⟨4, some (.jumpIfZero 8)⟩, some 5) := by
    decide +kernel
  have fusedKnown : (offsetAfterSum.assemble true).toOption.map (fun script =>
      ((offsetAfterSum.filled true script).effects[3]?,
        (offsetAfterSum.filled true script).reached? 6)) =
      some (some ⟨2, some (.jumpIfZero 6)⟩, some 5) := by
    decide +kernel
  obtain ⟨plain, isPlain, plainFacts⟩ := Option.map_eq_some_iff.mp plainKnown
  obtain ⟨fused, isFused, fusedFacts⟩ := Option.map_eq_some_iff.mp fusedKnown
  rw [toOption_eq_some_iff] at isPlain isFused
  obtain ⟨plainJump, plainReached⟩ := Prod.mk.inj plainFacts
  obtain ⟨fusedJump, fusedReached⟩ := Prod.mk.inj fusedFacts
  exact ⟨plain, fused, isPlain, isFused, plainJump, fusedJump, plainReached, fusedReached,
    keepsOffsets_of_assemble isPlain isFused⟩

/-- A listing with a jump by a number over a sum that becomes shorter. -/
def offsetOverSum : Listing where
  config := { name := "offset" }
  functions :=
    [⟨"main", 0,
      [.instruction none "J" ["3"], .instruction none "PUSH_CONST_U8" ["5"],
        .instruction none "IADD" [], .instruction none "LEAVE" ["0", "0"]]⟩]

/-- Without fusing, the jump leads to the end of the function.  After fusing it has the same target,
but the end of the function has moved, and no instruction begins there. -/
theorem reached?_ne_offsetOverSum :
    ∃ plain fused, offsetOverSum.assemble false = .ok plain ∧
      offsetOverSum.assemble true = .ok fused ∧
      ListsOffsets offsetOverSum.functions 0 0 ∧ StartsItem offsetOverSum.functions 0 6 ∧
      (offsetOverSum.filled false plain).effects[0]? = some ⟨0, some (.jump 6)⟩ ∧
      (offsetOverSum.filled true fused).effects[0]? = some ⟨0, some (.jump 6)⟩ ∧
      (offsetOverSum.filled false plain).reached? 6 = some 3 ∧
      (offsetOverSum.filled true fused).reached? 5 = some 3 ∧
      (offsetOverSum.filled true fused).reached? 6 = none := by
  have plainKnown : (offsetOverSum.assemble false).toOption.map (fun script =>
      ((offsetOverSum.filled false script).effects[0]?,
        (offsetOverSum.filled false script).reached? 6)) =
      some (some ⟨0, some (.jump 6)⟩, some 3) := by
    decide +kernel
  have fusedKnown : (offsetOverSum.assemble true).toOption.map (fun script =>
      ((offsetOverSum.filled true script).effects[0]?,
        [5, 6].map (offsetOverSum.filled true script).reached?)) =
      some (some ⟨0, some (.jump 6)⟩, [some 3, none]) := by
    decide +kernel
  obtain ⟨plain, isPlain, plainFacts⟩ := Option.map_eq_some_iff.mp plainKnown
  obtain ⟨fused, isFused, fusedFacts⟩ := Option.map_eq_some_iff.mp fusedKnown
  rw [toOption_eq_some_iff] at isPlain isFused
  obtain ⟨plainJump, plainReached⟩ := Prod.mk.inj plainFacts
  obtain ⟨fusedJump, fusedReached⟩ := Prod.mk.inj fusedFacts
  simp only [List.map_cons, List.map_nil, List.cons.injEq, and_true] at fusedReached
  have isJump : Lists offsetOverSum.functions 0 0 .j ["3"] := ⟨none, "J", rfl, by decide +kernel⟩
  have isNumber : Text.integer? "3" = some 3 := by decide +kernel
  have isStart : address offsetOverSum.functions 0 3 = 6 := by decide +kernel
  exact ⟨plain, fused, isPlain, isFused, .jump isJump rfl isNumber,
    ⟨3, none, "LEAVE", ["0", "0"], rfl, isStart⟩, plainJump, fusedJump, plainReached,
    fusedReached.1, fusedReached.2⟩

end Listing
end ScriptBytecode
