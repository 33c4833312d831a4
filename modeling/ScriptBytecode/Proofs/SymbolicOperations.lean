import ScriptBytecode.Proofs.LiftedCode
import ScriptBytecode.Proofs.Statements

/-!
# Symbolic operations

A statement whose targets are all symbolic has symbolic operations: the operations of its
instruction, with the addresses of labels and functions left open.  The instruction that the
statement is linked to has these operations at the addresses that it was linked with.
-/

namespace ScriptBytecode

/-- An operation that depends on the addresses of labels and functions. -/
abbrev SymbolicOperation := (labelAt functionAt : String → Nat) → Operation

namespace Statement

/-- Every target of a statement is a label or the name of a function. -/
def SymbolicTargets : Statement → Prop
  | .plain opcode _ => opcode.layout ≠ .rel16 ∧ opcode.layout ≠ .switch ∧ opcode ≠ .call
  | _ => True

instance (statement : Statement) : Decidable statement.SymbolicTargets :=
  match statement with
  | .plain opcode _ => inferInstanceAs
      (Decidable (opcode.layout ≠ .rel16 ∧ opcode.layout ≠ .switch ∧ opcode ≠ .call))
  | .jump _ _ | .call _ | .switch _ => .isTrue trivial

/-- The operations of a statement; nothing if it cannot be lifted. -/
def operations? (natives : Array UInt64) : Statement → Option (List SymbolicOperation)
  | .plain opcode operands =>
    ((⟨0, opcode, operands.stored⟩ : Instruction).operations natives).toOption.map
      (List.map fun operation _ _ => operation)
  | .jump .j label => some [fun labelAt _ => .jump (labelAt label)]
  | .jump .jz label => some [fun labelAt _ => .jumpIfZero (labelAt label)]
  | .jump opcode label =>
    (opcode.jumpCompare?.bind Opcode.simpleOperation?).map fun compare =>
      [fun _ _ => compare, fun labelAt _ => .jumpIfZero (labelAt label)]
  | .call function => some [fun _ functionAt => .call (functionAt function)]
  | .switch cases =>
    some [fun labelAt _ =>
      .switch (cases.map fun (value, label) => (value.toInt32.toInt, labelAt label))]

end Statement

/-- An operation with other targets. -/
def Operation.mapTargets (change : Nat → Nat) : Operation → Operation
  | .jump target => .jump (change target)
  | .jumpIfZero target => .jumpIfZero (change target)
  | .call target => .call (change target)
  | .switch cases => .switch (cases.map fun (value, target) => (value, change target))
  | operation => operation

/-! ## Operations without targets -/

/-- An operation without a target. -/
def Operation.Targetless (operation : Operation) : Prop :=
  ∀ change, operation.mapTargets change = operation

theorem Opcode.simpleOperation?_targetless
    {opcode : Opcode} {operation : Operation}
    (isSimple : opcode.simpleOperation? = some operation) :
    operation.Targetless := by
  unfold simpleOperation? at isSimple
  split at isSimple <;> cases isSimple <;> exact fun _ => rfl

theorem AddressForm.operations_targetless (form : AddressForm) (immediate : Int) :
    ∀ operation ∈ form.operations immediate, operation.Targetless := by
  obtain ⟨kind, access⟩ := form
  intro operation member change
  rcases List.mem_append.mp member with inKind | inAccess
  · cases kind <;> simp only [AddressKind.operations, List.mem_cons, List.not_mem_nil, or_false]
      at inKind
    case offset => rcases inKind with rfl | rfl <;> rfl
    all_goals cases inKind; rfl
  · cases access <;> simp only [Access.operations, List.mem_cons, List.not_mem_nil, or_false]
      at inAccess
    all_goals cases inAccess; rfl

theorem ImmediateArith.operation_targetless (arith : ImmediateArith) :
    arith.operation.Targetless := by
  cases arith <;> exact fun _ => rfl

namespace Instruction

variable {natives : Array UInt64} {instruction : Instruction} {operations : List Operation}

theorem operandOperations?_targetless
    (noJump : instruction.opcode.layout ≠ .rel16)
    (noSwitch : instruction.opcode.layout ≠ .switch)
    (noCall : instruction.opcode ≠ .call)
    (lifted : instruction.operandOperations? natives = .ok operations) :
    ∀ operation ∈ operations, operation.Targetless := by
  obtain ⟨ip, opcode, operands⟩ := instruction
  simp only at noJump noSwitch noCall
  unfold operandOperations? at lifted
  dsimp only at lifted
  split at lifted
  case h_10 =>
    split at lifted
    · cases lifted
      simp [Operation.Targetless, Operation.mapTargets]
    · cases lifted
  case h_11 | h_12 => exact absurd rfl noJump
  case h_13 => exact absurd rfl noCall
  case h_14 => exact absurd rfl noSwitch
  case h_19 => cases lifted
  all_goals
    cases lifted
    simp [Operation.Targetless, Operation.mapTargets]

/-- Only jumps, switches and calls have targets. -/
theorem operations_targetless
    (noJump : instruction.opcode.layout ≠ .rel16)
    (noSwitch : instruction.opcode.layout ≠ .switch)
    (noCall : instruction.opcode ≠ .call)
    (operandLayout : instruction.operands.layout = instruction.opcode.layout)
    (lifted : instruction.operations natives = .ok operations) :
    ∀ operation ∈ operations, operation.Targetless := by
  unfold Instruction.operations at lifted
  simp only at lifted
  split at lifted
  · cases lifted
    exact AddressForm.operations_targetless _ _
  · cases lifted
    refine List.forall_mem_cons.mpr ⟨fun _ => rfl, ?_⟩
    simpa using ImmediateArith.operation_targetless _
  · split at lifted
    · cases lifted
      simp [Operation.Targetless, Operation.mapTargets]
    · cases lifted
      simp [Operation.Targetless, Operation.mapTargets]
    · split at lifted
      · rename_i isRel16
        rw [isRel16] at operandLayout
        exact absurd operandLayout.symm noJump
      · split at lifted
        · rename_i isSimple
          cases lifted
          simpa using Opcode.simpleOperation?_targetless isSimple
        · exact operandOperations?_targetless noJump noSwitch noCall lifted

/-- Without jumps and switches, the operations do not depend on the address. -/
theorem operations_at
    (opcode : Opcode)
    (operands : Operands)
    (noJump : operands.layout ≠ .rel16)
    (noSwitch : operands.layout ≠ .switch)
    (ip other : Nat) :
    ((⟨ip, opcode, operands⟩ : Instruction).operations natives).toOption =
      ((⟨other, opcode, operands⟩ : Instruction).operations natives).toOption := by
  have operandsOnly : ((⟨ip, opcode, operands⟩ : Instruction).operandOperations? natives).toOption =
      ((⟨other, opcode, operands⟩ : Instruction).operandOperations? natives).toOption := by
    unfold operandOperations?
    dsimp only
    split
    case h_11 | h_12 => exact absurd rfl noJump
    case h_14 => exact absurd rfl noSwitch
    all_goals rfl
  unfold Instruction.operations
  simp only
  split
  · rfl
  · rfl
  · split
    · rfl
    · rfl
    · split
      · exact absurd rfl noJump
      · split
        · rfl
        · exact operandsOnly

end Instruction

/-! ## Resolved statements -/

namespace Statement

variable {opcode : Opcode} {statement : Statement} {natives : Array UInt64}
    {operations : List SymbolicOperation}

/-- The opcodes that jump are the plain jumps and the comparing ones. -/
theorem jump_opcode_cases
    (isJump : opcode.layout = .rel16) :
    opcode = .j ∨ opcode = .jz ∨ ∃ compare, opcode.jumpCompare?.bind Opcode.simpleOperation? =
      some compare ∧ opcode.addressForm? = none ∧ opcode.immediateArith? = none ∧
      opcode.intConstant? = none ∧ opcode.floatConstant? = none ∧ compare.Targetless := by
  cases opcode <;> first
    | exact .inl rfl
    | exact .inr (.inl rfl)
    | exact .inr (.inr ⟨_, rfl, rfl, rfl, rfl, rfl, fun _ => rfl⟩)
    | cases isJump

theorem operations?_jump
    {compare : Operation}
    (isCompare : opcode.jumpCompare?.bind Opcode.simpleOperation? = some compare)
    (natives : Array UInt64)
    (label : String) :
    (jump opcode label).operations? natives =
      some [fun _ _ => compare, fun labelAt _ => .jumpIfZero (labelAt label)] := by
  unfold operations?
  split
  · rename_i isPlain
    cases isPlain
  · rename_i isJump
    cases isJump
    cases isCompare
  · rename_i isJump
    cases isJump
    cases isCompare
  · rename_i isJump
    cases isJump
    rw [isCompare]
    rfl
  · rename_i isCall
    cases isCall
  · rename_i isSwitch
    cases isSwitch

/-- A statement that can be lifted has an operation. -/
theorem operations?_ne_nil
    (found : statement.operations? natives = some operations) :
    operations ≠ [] := by
  unfold operations? at found
  split at found
  · obtain ⟨plainOperations, isLifted, rfl⟩ := Option.map_eq_some_iff.mp found
    rw [Ne, List.map_eq_nil_iff]
    exact Instruction.operations_ne_nil (toOption_eq_some_iff.mp isLifted)
  · cases found
    simp
  · cases found
    simp
  · obtain ⟨compare, _, rfl⟩ := Option.map_eq_some_iff.mp found
    simp
  · cases found
    simp
  · cases found
    simp

/-- A resolved statement has the operations of the statement at the addresses that its operands
lead to. -/
theorem operations_resolved
    (encodable : statement.Encodable)
    (targets : statement.SymbolicTargets)
    {address : Nat} {labelOperand : Nat → String → Int16} {functionOperand : String → UInt32}
    {labelAt functionAt : String → Nat}
    (leads : LeadsTo address labelOperand functionOperand labelAt functionAt statement)
    (natives : Array UInt64) :
    ((statement.resolved address labelOperand functionOperand).operations natives).toOption =
      (statement.operations? natives).map (List.map fun operation =>
        operation labelAt functionAt) := by
  cases statement with
  | plain opcode operands =>
      obtain ⟨noJump, noSwitch, _⟩ := targets
      have layout : operands.layout = opcode.layout := encodable.emittable.layout
      rw [← layout] at noJump noSwitch
      rw [resolved, operations?, Instruction.operations_at opcode operands.stored (by simpa)
        (by simpa) address 0]
      simp [Function.comp_def]
  | jump opcode label =>
      have target := leads.jump opcode label rfl
      rcases jump_opcode_cases encodable.emittable.layout with rfl | rfl | isCompare
      · exact congrArg (fun target => some [Operation.jump target]) target
      · exact congrArg (fun target => some [Operation.jumpIfZero target]) target
      · obtain ⟨compare, isCompare, notAddress, notArith, notInt, notFloat, _⟩ := isCompare
        rw [operations?_jump isCompare]
        simp [resolved, Instruction.operations, notAddress, notArith, notInt, notFloat, isCompare,
          target, Except.toOption]
  | call function =>
      exact congrArg (fun target => some [Operation.call target]) (leads.call function rfl)
  | switch cases =>
      have targets := leads.switch cases rfl
      have values := congrArg (List.map fun case => (case.1.toInt32.toInt, case.2)) targets
      rw [List.map_map, List.map_map] at values
      exact congrArg (fun targets => some [Operation.switch targets]) values

/-- Changing the targets of an operation changes the addresses it depends on. -/
theorem mapTargets_of_mem_operations?
    (encodable : statement.Encodable)
    (targets : statement.SymbolicTargets)
    (found : statement.operations? natives = some operations)
    {operation : SymbolicOperation}
    (member : operation ∈ operations)
    (change : Nat → Nat)
    (labelAt functionAt : String → Nat) :
    (operation labelAt functionAt).mapTargets change =
      operation (fun label => change (labelAt label))
        (fun function => change (functionAt function)) := by
  cases statement with
  | plain opcode operands =>
      obtain ⟨noJump, noSwitch, noCall⟩ := targets
      obtain ⟨plainOperations, isLifted, rfl⟩ := Option.map_eq_some_iff.mp found
      obtain ⟨plainOperation, isOperation, rfl⟩ := List.mem_map.mp member
      exact Instruction.operations_targetless noJump noSwitch noCall
        (by simpa [MatchesLayout] using encodable.emittable.layout)
        (toOption_eq_some_iff.mp isLifted) plainOperation isOperation change
  | jump opcode label =>
      rcases jump_opcode_cases encodable.emittable.layout with rfl | rfl | isCompare
      · cases found
        cases List.mem_singleton.mp member
        rfl
      · cases found
        cases List.mem_singleton.mp member
        rfl
      · obtain ⟨compare, isCompare, _, _, _, _, targetless⟩ := isCompare
        rw [operations?_jump isCompare] at found
        cases found
        rcases List.mem_cons.mp member with rfl | isJump
        · exact targetless change
        · cases List.mem_singleton.mp isJump
          rfl
  | call function =>
      cases found
      cases List.mem_singleton.mp member
      rfl
  | switch cases =>
      cases found
      cases List.mem_singleton.mp member
      simp [Operation.mapTargets]

end Statement
end ScriptBytecode
