import ScriptBytecode.Proofs.KeptOffsets

/-!
# Native calls in lifted code

Only the instruction for it is lifted to the call of a native.  So the native calls of linked code
are those of the statements it is linked from, in order, whether they were fused or not: filler has
none, and fusing keeps the items of a stream.
-/

namespace ScriptBytecode

open Instruction Builder

/-- The operation itself if it is the call of a native. -/
def Operation.nativeCall? : Operation → Option Operation
  | .nativeCall parameters returns hash => some (.nativeCall parameters returns hash)
  | _ => none

/-- The call of a native that an effect is. -/
def Effect.nativeCall? (effect : Effect) : Option Operation :=
  effect.operation.bind Operation.nativeCall?

/-- The call of a native that an item of a stream is. -/
def StreamItem.nativeCall? : StreamItem → Option Operation
  | .operation bare _ => bare.nativeCall?
  | _ => none

/-! ## Items and effects -/

theorem Operation.nativeCall?_mapTargets (change : Nat → Nat) (operation : Operation) :
    (operation.mapTargets change).nativeCall? = operation.nativeCall? := by
  cases operation <;> rfl

theorem Carries.nativeCall?_eq
    {item : StreamItem} {effect : Effect}
    (carries : Carries item effect) :
    item.nativeCall? = effect.nativeCall? := by
  cases carries with
  | operation byOffsets => exact Operation.nativeCall?_mapTargets _ _
  | unlifted error address => rfl

/-- Effects call the natives of the items that they carry out. -/
theorem Carries.filterMap_nativeCall?_eq
    {items : List StreamItem} {effects : List Effect}
    (carries : List.Forall₂ Carries items effects) :
    items.filterMap StreamItem.nativeCall? = effects.filterMap Effect.nativeCall? := by
  induction carries with
  | nil => rfl
  | cons here _ ih =>
      rw [List.filterMap_cons, List.filterMap_cons, here.nativeCall?_eq, ih]

/-! ## Instructions -/

theorem AddressForm.nativeCall?_of_mem
    {form : AddressForm} {immediate : Int} :
    ∀ operation ∈ form.operations immediate, operation.nativeCall? = none := by
  have ofKind : ∀ operation ∈ form.kind.operations immediate, operation.nativeCall? = none := by
    cases form.kind <;> simp [AddressKind.operations, Operation.nativeCall?]
  have ofAccess : ∀ operation ∈ form.access.operations, operation.nativeCall? = none := by
    cases form.access <;> simp [Access.operations, Operation.nativeCall?]
  exact List.forall_mem_append.mpr ⟨ofKind, ofAccess⟩

theorem ImmediateArith.nativeCall?_operation (arith : ImmediateArith) :
    arith.operation.nativeCall? = none := by
  cases arith <;> rfl

theorem Opcode.nativeCall?_of_simpleOperation?
    {opcode : Opcode} {operation : Operation}
    (isSimple : opcode.simpleOperation? = some operation) :
    operation.nativeCall? = none := by
  cases opcode <;> cases isSimple <;> rfl

namespace Instruction

variable {natives : Array UInt64} {instruction : Instruction} {operations : List Operation}

theorem nativeCall?_of_operandOperations?
    (notNative : instruction.opcode ≠ .native)
    (lifted : instruction.operandOperations? natives = .ok operations) :
    ∀ operation ∈ operations, operation.nativeCall? = none := by
  unfold operandOperations? at lifted
  dsimp only at lifted
  split at lifted
  case h_10 isNative _ => exact absurd isNative notNative
  case h_19 => cases lifted
  all_goals
    cases lifted
    simp [Operation.nativeCall?]

/-- Only the instruction for it calls a native. -/
theorem nativeCall?_of_mem_operations
    (notNative : instruction.opcode ≠ .native)
    (lifted : instruction.operations natives = .ok operations) :
    ∀ operation ∈ operations, operation.nativeCall? = none := by
  unfold Instruction.operations at lifted
  simp only at lifted
  split at lifted
  · cases lifted
    exact AddressForm.nativeCall?_of_mem
  · cases lifted
    exact List.forall_mem_cons.mpr
      ⟨rfl, List.forall_mem_singleton.mpr (ImmediateArith.nativeCall?_operation _)⟩
  · split at lifted
    · cases lifted
      exact List.forall_mem_singleton.mpr rfl
    · cases lifted
      exact List.forall_mem_singleton.mpr rfl
    · split at lifted
      · rename_i isCompare _
        cases lifted
        obtain ⟨_, -, isSimple⟩ := Option.bind_eq_some_iff.mp isCompare
        exact List.forall_mem_cons.mpr
          ⟨Opcode.nativeCall?_of_simpleOperation? isSimple, List.forall_mem_singleton.mpr rfl⟩
      · split at lifted
        · rename_i isSimple
          cases lifted
          exact List.forall_mem_singleton.mpr (Opcode.nativeCall?_of_simpleOperation? isSimple)
        · exact nativeCall?_of_operandOperations? notNative lifted

theorem filterMap_effects_eq_nil (notNative : instruction.opcode ≠ .native) :
    (instruction.effects natives).filterMap Effect.nativeCall? = [] := by
  unfold effects
  split
  · rename_i lifted
    rw [List.filterMap_map, List.filterMap_eq_nil_iff]
    exact nativeCall?_of_mem_operations notNative lifted
  · rfl

/-- The items of an instruction call the natives that its effects call. -/
theorem filterMap_items_eq (targets : List StreamTarget) :
    (instruction.items natives targets).filterMap StreamItem.nativeCall? =
      (instruction.effects natives).filterMap Effect.nativeCall? := by
  unfold items effects
  cases instruction.operations natives with
  | error error => rfl
  | ok operations =>
      rw [List.filterMap_map, List.filterMap_map]
      refine List.filterMap_congr fun operation _ => ?_
      exact operation.nativeCall?_mapTargets fun _ => 0

end Instruction

/-! ## Statements -/

namespace Statement

variable {statement : Statement}

/-- The native calls of a statement, given the table of natives. -/
def nativeCalls (natives : Array UInt64) (statement : Statement) : List Operation :=
  (statement.items natives).filterMap StreamItem.nativeCall?

theorem flatMap_nativeCalls (natives : Array UInt64) (statements : List Statement) :
    statements.flatMap (nativeCalls natives) =
      (statements.flatMap (items natives)).filterMap StreamItem.nativeCall? := by
  rw [List.filterMap_flatMap]
  rfl

theorem opcode_blank (address : Nat) (statement : Statement) :
    (statement.blank address).opcode = statement.opcode := by
  cases statement <;> rfl

theorem nativeCalls_eq
    (encodable : statement.Encodable)
    (natives : Array UInt64) :
    statement.nativeCalls natives =
      ((statement.blank 0).effects natives).filterMap Effect.nativeCall? := by
  rw [nativeCalls, items_eq encodable, filterMap_items_eq]

theorem nativeCalls_eq_nil
    (encodable : statement.Encodable)
    (notNative : statement.opcode ≠ .native)
    (natives : Array UInt64) :
    statement.nativeCalls natives = [] := by
  rw [nativeCalls_eq encodable]
  exact filterMap_effects_eq_nil (opcode_blank 0 statement ▸ notNative)

theorem native_encodable (parameters returns : UInt8) (index : UInt16) :
    (native parameters returns index).Encodable :=
  ⟨native_emittable parameters returns index, Nat.zero_le _⟩

/-- The call of the native at an index is lifted to the call of its hash.  The numbers of parameters
and returns have six and two bits. -/
theorem nativeCalls_native
    {natives : Array UInt64} {index : UInt16} {hash : UInt64}
    (found : natives[index.toNat]? = some hash)
    (parameters returns : UInt8) :
    (native parameters returns index).nativeCalls natives =
      [.nativeCall (parameters % 64) (returns % 4) hash] := by
  have isParameters : Operands.nativeParameters (Operands.packCounts parameters returns) =
      parameters % 64 :=
    UInt8.toNat_inj.mp (Emission.nativeParameters_packCounts parameters returns)
  have isReturns : Operands.nativeReturns (Operands.packCounts parameters returns) =
      returns % 4 :=
    UInt8.toNat_inj.mp (Emission.nativeReturns_packCounts parameters returns)
  have lifted : ((native parameters returns index).blank 0).operations natives =
      .ok [.nativeCall (parameters % 64) (returns % 4) hash] := by
    rw [← isParameters, ← isReturns]
    change operandOperations? natives
      ⟨0, .native, .native (Operands.packCounts parameters returns) index⟩ = _
    simp only [operandOperations?, found]
  rw [nativeCalls_eq (native_encodable parameters returns index), effects, lifted]
  rfl

end Statement

/-! ## Linked code -/

theorem opcode_of_mem_gapInstructions
    {codeSize : Nat} {bytes : Bytes} {instruction : Instruction}
    (member : instruction ∈ gapInstructions codeSize bytes) :
    instruction.opcode ≠ .native := by
  have ofNops : ∀ start count, instruction ∈ nops start count → instruction.opcode ≠ .native := by
    intro start count
    induction count generalizing start with
    | zero => exact fun member => absurd member List.not_mem_nil
    | succ count ih =>
        intro member
        rcases List.mem_cons.mp member with rfl | inRest
        · rintro ⟨⟩
        · exact ih _ inRest
  unfold gapInstructions fillerInstructions at member
  split_ifs at member
  · rcases List.mem_cons.mp member with rfl | inNops
    · rintro ⟨⟩
    · exact ofNops _ _ inNops
  · exact ofNops _ _ member
  · cases member

/-- Filler calls no natives. -/
theorem Placement.filterMap_linked
    (natives : Array UInt64)
    (functions : Array FunctionSymbols)
    (placements : List Placement) :
    ((linked functions placements).flatMap (Instruction.effects natives)).filterMap
        Effect.nativeCall? =
      (placements.flatMap (Placement.effects natives functions)).filterMap Effect.nativeCall? := by
  induction placements with
  | nil => rfl
  | cons placement rest ih =>
      have filler : ((gapInstructions placement.before placement.bytes).flatMap
          (Instruction.effects natives)).filterMap Effect.nativeCall? = [] := by
        rw [List.filterMap_flatMap, List.flatMap_eq_nil_iff]
        exact fun _ member => filterMap_effects_eq_nil (opcode_of_mem_gapInstructions member)
      rw [linked, List.flatMap_append, List.flatMap_cons, List.filterMap_append, filler,
        List.nil_append, List.filterMap_append, ih, List.flatMap_cons,
        List.filterMap_append]
      rfl

/-- The native calls of lifted code are those of its instructions. -/
theorem filterMap_nativeCall?_of_lift
    {code : Bytes} {natives : Array UInt64} {lifted : Array LiftedOperation}
    (isLifted : lift code natives = .ok lifted) :
    lifted.toList.filterMap (fun operation => operation.operation.nativeCall?) =
      ((walk code).instructions.toList.flatMap (Instruction.effects natives)).filterMap
        Effect.nativeCall? := by
  rcases eq_or_ne code #[] with rfl | notEmpty
  · cases isLifted
    rfl
  · obtain ⟨-, others, isOthers, isList⟩ := liftedOf?_of_lift notEmpty isLifted
    rw [FilledCode.flatMap_effects_of_liftedOf? isOthers, isList, List.filterMap_append,
      List.filterMap_map]
    exact List.append_nil _

namespace FilledCode.Links

variable {filled : FilledCode} {functions : Array FunctionSymbols} {placements : List Placement}

/-- Linked code calls the natives of its statements. -/
theorem nativeCalls_of_lift
    (links : filled.Links functions placements)
    {lifted : Array LiftedOperation}
    (isLifted : lift filled.code filled.natives = .ok lifted) :
    lifted.toList.filterMap (fun operation => operation.operation.nativeCall?) =
      (placements.map Placement.statement).flatMap (Statement.nativeCalls filled.natives) := by
  have carried := Carries.filterMap_nativeCall?_eq links.forall₂_carries
  have instructions : (walk filled.code).instructions.toList = _ := links.instructions_eq
  rw [filterMap_nativeCall?_of_lift isLifted, instructions, Placement.filterMap_linked,
    ← links.effects_eq, ← carried, Statement.flatMap_nativeCalls]

end FilledCode.Links
end ScriptBytecode
