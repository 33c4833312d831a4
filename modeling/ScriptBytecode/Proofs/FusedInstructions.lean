import ScriptBytecode.Proofs.FusionRules
import ScriptBytecode.Proofs.WalkedCode

/-!
# Fusing single instructions

Two instructions are fused to instructions that have the operations of both, one after the other.
Only the jump of a comparing jump has a target, and it is the target of the jump that was fused into
it.  There is a lemma for each rule.
-/

namespace ScriptBytecode

/-- Whether an operation passes control on to targets. -/
def Operation.hasTargets : Operation → Bool
  | .jump _ | .jumpIfZero _ | .call _ | .switch _ => true
  | _ => false

namespace Instruction

variable {opcode : Opcode} {operands : Operands}

/-- The operands of an instruction that are targets, with their offsets in the instruction: the
offset of a jump, the offsets of the cases of a switch and the address that is called. -/
def targetOperands (instruction : Instruction) : List (Nat × Int) :=
  match instruction.opcode, instruction.operands with
  | _, .rel16 offset => [(1, offset.toInt)]
  | .call, .u24 address => [(1, address.toNat)]
  | _, .switch cases => cases.mapIdx fun index (_, offset) => (6 + 6 * index, offset.toInt)
  | _, _ => []

/-- A well-formed instruction at the start of its bytes. -/
structure Single (instruction : Instruction) : Prop extends instruction.WellFormed where
  ip : instruction.ip = 0

/-- A single instruction with the given operations, whatever the natives. -/
structure Means (instruction : Instruction) (operations : List Operation) : Prop where
  single : instruction.Single
  operations : ∀ natives, instruction.operations natives = .ok operations

/-- A single instruction without a target and with the given operations. -/
structure Plain (instruction : Instruction) (operations : List Operation) : Prop
    extends instruction.Means operations where
  noTargets : instruction.targetOperands = []

theorem targetOperands_eq_nil
    (noJump : operands.layout ≠ .rel16)
    (noSwitch : operands.layout ≠ .switch)
    (noCall : opcode ≠ .call) :
    (⟨0, opcode, operands⟩ : Instruction).targetOperands = [] := by
  unfold targetOperands
  dsimp only
  split
  · exact absurd rfl noJump
  · exact absurd rfl noCall
  · exact absurd rfl noSwitch
  · rfl

/-- The layouts of operands of a few bytes without a target. -/
def shortLayouts : List OperandLayout :=
  [.none, .u8, .u8u8, .u8u8u8, .u16, .u24, .s16]

theorem plain_of_layout
    (layout : operands.layout = opcode.layout)
    (fits : operands.Fits)
    (isShort : opcode.layout ∈ shortLayouts)
    (noCall : opcode ≠ .call)
    {operations : List Operation}
    (lifted : ∀ natives,
      (⟨0, opcode, operands⟩ : Instruction).operations natives = .ok operations) :
    (⟨0, opcode, operands⟩ : Instruction).Plain operations := by
  have notIn : ∀ other, other ∉ shortLayouts → operands.layout ≠ other := by
    rintro other notShort rfl
    exact notShort (layout ▸ isShort)
  exact ⟨⟨⟨⟨layout, fits⟩, rfl⟩, lifted⟩,
    targetOperands_eq_nil (notIn _ (by decide)) (notIn _ (by decide)) noCall⟩

section Single

variable {instruction : Instruction} {opcode : Opcode}

/-- A single instruction is its opcode with operands of the layout that the opcode calls for. -/
theorem Single.exists_operands
    (single : instruction.Single)
    (isOpcode : instruction.opcode = opcode) :
    ∃ operands : Operands, instruction = ⟨0, opcode, operands⟩ ∧
      operands.layout = opcode.layout ∧ operands.Fits := by
  obtain ⟨ip, found, operands⟩ := instruction
  obtain ⟨⟨layout, fits⟩, rfl⟩ := single
  cases isOpcode
  exact ⟨operands, rfl, layout, fits⟩

/-- A single instruction whose opcode takes no operands. -/
theorem Single.plain_none
    (single : instruction.Single)
    (isOpcode : instruction.opcode = opcode)
    (noOperands : opcode.layout = .none)
    {operations : List Operation}
    (lifted : ∀ natives,
      (⟨0, opcode, .none⟩ : Instruction).operations natives = .ok operations) :
    instruction.Plain operations := by
  obtain ⟨operands, rfl, layout, fits⟩ := single.exists_operands isOpcode
  cases operands with
  | none =>
      refine plain_of_layout layout fits (by rw [noOperands]; decide) ?_ lifted
      rintro rfl
      cases noOperands
  | _ => cases layout.trans noOperands

end Single

/-- The operations of an instruction are those of its statement. -/
theorem operations_of_statement
    (fits : operands.Fits)
    {natives : Array UInt64} {operations : List Operation}
    (isStatement : (Statement.plain opcode operands).operations? natives =
      some (operations.map fun operation _ _ => operation)) :
    (⟨0, opcode, operands⟩ : Instruction).operations natives = .ok operations := by
  obtain ⟨lifted, isLifted, same⟩ := Option.map_eq_some_iff.mp isStatement
  rw [Operands.stored_eq_self fits, toOption_eq_some_iff] at isLifted
  have sameOperations : lifted = operations := by
    refine (List.map_inj_right fun left right equal => ?_).mp same
    exact congrFun (congrFun equal fun _ => 0) fun _ => 0
  rw [isLifted, sameOperations]

theorem opcodeOf?_bytes (instruction : Instruction) :
    opcodeOf? instruction.bytes = some instruction.opcode := by
  simp [opcodeOf?, bytes]

theorem withOpcode_bytes (opcode other : Opcode) (operands : Operands) :
    Fusion.withOpcode (⟨0, opcode, operands⟩ : Instruction).bytes other =
      (⟨0, other, operands⟩ : Instruction).bytes := by
  simp [Fusion.withOpcode, bytes]

/-! Pushes of constants. -/

section Pushes

variable (first second third : UInt8)

theorem plain_pushU8 :
    (⟨0, .pushConstU8, .u8 first⟩ : Instruction).Plain [.pushInt first.toNat] :=
  ⟨⟨⟨⟨rfl, trivial⟩, rfl⟩, fun _ => rfl⟩, rfl⟩

theorem plain_pushU8U8 :
    (⟨0, .pushConstU8U8, .u8u8 first second⟩ : Instruction).Plain
      [.pushInt first.toNat, .pushInt second.toNat] :=
  ⟨⟨⟨⟨rfl, trivial⟩, rfl⟩, fun _ => rfl⟩, rfl⟩

theorem plain_pushU8U8U8 :
    (⟨0, .pushConstU8U8U8, .u8u8u8 first second third⟩ : Instruction).Plain
      [.pushInt first.toNat, .pushInt second.toNat, .pushInt third.toNat] :=
  ⟨⟨⟨⟨rfl, trivial⟩, rfl⟩, fun _ => rfl⟩, rfl⟩

theorem plain_pushS16 (value : Int16) :
    (⟨0, .pushConstS16, .s16 value⟩ : Instruction).Plain [.pushInt value.toInt] :=
  ⟨⟨⟨⟨rfl, trivial⟩, rfl⟩, fun _ => rfl⟩, rfl⟩

end Pushes

end Instruction

namespace Fusion

open Instruction

variable {first second : Instruction} {fusion : Fusion}

/-- What a fusion of two instructions gives: instructions with the operations of both. -/
inductive Joins (first second : Instruction) : Fusion → Prop
  | intoFirst
      {fused : Instruction}
      {left right : List Operation}
      (isFirst : first.Plain left)
      (isSecond : second.Plain right)
      (isFused : fused.Plain (left ++ right)) :
      Joins first second (.intoFirst fused.bytes)
  | intoSecond
      {fused : Instruction}
      {left right : List Operation}
      (isFirst : first.Plain left)
      (targetless : ∀ operation ∈ left, operation.hasTargets = false)
      (isSecond : second.Means right)
      (isFused : fused.Means (left ++ right))
      (sameTargets : fused.targetOperands = second.targetOperands) :
      Joins first second (.intoSecond fused.bytes)
  | both
      {newFirst newSecond : Instruction}
      {left right newLeft newRight : List Operation}
      (isFirst : first.Plain left)
      (isSecond : second.Plain right)
      (isNewFirst : newFirst.Plain newLeft)
      (isNewSecond : newSecond.Plain newRight)
      (same : newLeft ++ newRight = left ++ right) :
      Joins first second (.both newFirst.bytes newSecond.bytes)

/-! ## Address pushes -/

/-- An address push and an access are fused to the addressing instruction with that access. -/
theorem addressAccess?_joins
    (firstSingle : first.Single)
    (secondSingle : second.Single)
    (found : addressAccess? first.bytes second.bytes = some fusion) :
    Joins first second fusion := by
  simp only [addressAccess?, opcodeOf?_bytes, Option.bind_eq_bind, Option.bind_some,
    Option.bind_eq_some_iff] at found
  obtain ⟨access, isAccess, fused, isFused, isFusion⟩ := found
  obtain ⟨⟨loading, storing⟩, variants, rfl⟩ := Option.map_eq_some_iff.mp isFused
  cases isFusion
  obtain ⟨kind, isPush, isLoading, isStoring, loadLayout, storeLayout, pushLayout⟩ :=
    accessVariants?_eq_some variants
  generalize isOpcode : first.opcode = opcode at isPush loadLayout storeLayout pushLayout
  obtain ⟨operands, rfl, layout, fits⟩ := firstSingle.exists_operands isOpcode
  obtain ⟨immediate, isImmediate⟩ := immediate?_of_layout (layout ▸ pushLayout)
  rw [Operands.stored_eq_self fits] at isImmediate
  have isShort : opcode.layout ∈ shortLayouts := by
    simp only [shortLayouts, List.mem_cons] at pushLayout ⊢
    grind
  have isPlain : ∀ {other form}, other.addressForm? = some form → other.layout = opcode.layout →
      (⟨0, other, operands⟩ : Instruction).Plain (form.operations immediate) := by
    intro other form isForm sameLayout
    refine plain_of_layout (layout.trans sameLayout.symm) fits (sameLayout ▸ isShort) ?_ ?_
    · rintro rfl
      cases isForm
    · intro natives
      simp [Instruction.operations, isForm, isImmediate]
  have pushes := isPlain isPush rfl
  simp only [AddressForm.operations, Access.operations, List.append_nil] at pushes
  rw [withOpcode_bytes]
  rcases accessOf?_eq_some isAccess with ⟨isLoad, rfl⟩ | ⟨isStore, rfl⟩
  · exact .intoFirst pushes (secondSingle.plain_none isLoad rfl fun _ => rfl)
      (isPlain isLoading loadLayout)
  · exact .intoFirst pushes (secondSingle.plain_none isStore rfl fun _ => rfl)
      (isPlain isStoring storeLayout)

/-! ## Arithmetic with an immediate -/

/-- What is known of an arithmetic instruction and its immediate form. -/
theorem plain_of_withImmediate?
    (single : second.Single)
    {layout : OperandLayout} {fused : Opcode}
    (isFused : second.opcode.withImmediate? layout = some fused)
    (isShort : layout ∈ shortLayouts) :
    ∃ arith, second.Plain [ImmediateArith.operation arith] ∧
      ∀ operands immediate, operands.layout = layout → operands.Fits →
        operands.immediate? = some immediate →
        (⟨0, fused, operands⟩ : Instruction).Plain [.pushInt immediate, arith.operation] := by
  obtain ⟨arith, lifted, noOperands, isArith, notAddress, fusedLayout, noCall⟩ :=
    withImmediate?_eq_some isFused
  have fitsNone : Operands.none.Fits := trivial
  refine ⟨arith, single.plain_none rfl noOperands fun natives =>
    operations_of_statement fitsNone (lifted natives), ?_⟩
  intro operands immediate sameLayout fits isImmediate
  refine plain_of_layout (sameLayout.trans fusedLayout.symm) fits (fusedLayout ▸ isShort) noCall
    fun natives => ?_
  simp [Instruction.operations, isArith, notAddress, isImmediate]

/-- A 16-bit push and arithmetic are fused to the arithmetic with an immediate. -/
theorem arithS16?_joins
    (firstSingle : first.Single)
    (secondSingle : second.Single)
    (found : arithS16? first.bytes second.bytes = some fusion) :
    Joins first second fusion := by
  simp only [arithS16?, opcodeOf?_bytes, Option.bind_eq_bind, Option.bind_some,
    Option.bind_eq_some_iff, Option.some.injEq, Option.ite_none_right_eq_some] at found
  obtain ⟨fused, isFused, isPush, rfl⟩ := found
  obtain ⟨arith, isSecond, immediates⟩ :=
    plain_of_withImmediate? secondSingle isFused (by decide)
  obtain ⟨operands, rfl, layout, -⟩ := firstSingle.exists_operands isPush
  cases operands with
  | s16 value =>
      rw [withOpcode_bytes]
      exact .intoFirst (plain_pushS16 value) isSecond (immediates _ _ rfl trivial rfl)
  | _ => cases layout

/-- The last byte pushed and arithmetic are fused to the arithmetic with an immediate. -/
theorem arithU8?_joins
    (firstSingle : first.Single)
    (secondSingle : second.Single)
    (found : arithU8? first.bytes second.bytes = some fusion) :
    Joins first second fusion := by
  simp only [arithU8?, opcodeOf?_bytes, Option.bind_eq_bind, Option.bind_some,
    Option.bind_eq_some_iff] at found
  obtain ⟨fused, isFused, found⟩ := found
  obtain ⟨arith, isSecond, immediates⟩ :=
    plain_of_withImmediate? secondSingle isFused (by decide)
  have isFused : ∀ value, (⟨0, fused, .u8 value⟩ : Instruction).Plain
      [.pushInt value.toNat, arith.operation] := fun value => immediates _ _ rfl trivial rfl
  split at found
  · rename_i isPush
    obtain ⟨operands, rfl, layout, -⟩ := firstSingle.exists_operands isPush
    cases operands with
    | u8 value =>
        cases found
        exact .intoFirst (plain_pushU8 value) isSecond (isFused value)
    | _ => cases layout
  · rename_i isPush
    obtain ⟨operands, rfl, layout, -⟩ := firstSingle.exists_operands isPush
    cases operands with
    | u8u8 value0 value1 =>
        cases found
        exact .both (plain_pushU8U8 value0 value1) isSecond (plain_pushU8 value0)
          (isFused value1) rfl
    | _ => cases layout
  · rename_i isPush
    obtain ⟨operands, rfl, layout, -⟩ := firstSingle.exists_operands isPush
    cases operands with
    | u8u8u8 value0 value1 value2 =>
        cases found
        exact .both (plain_pushU8U8U8 value0 value1 value2) isSecond
          (plain_pushU8U8 value0 value1) (isFused value2) rfl
    | _ => cases layout
  · simp only [Option.bind_eq_some_iff, Option.ite_none_right_eq_some] at found
    obtain ⟨value, isConstant, notNegative, isFusion⟩ := found
    cases isFusion
    obtain ⟨noOperands, small, lifted⟩ := intConstant?_eq_some isConstant
    have sameValue : ((UInt8.ofNat value.toNat).toNat : Int) = value := by
      rw [UInt8.toNat_ofNat']
      omega
    have fitsNone : Operands.none.Fits := trivial
    have isFirst : first.Plain [.pushInt value] :=
      firstSingle.plain_none rfl noOperands fun natives =>
        operations_of_statement fitsNone (lifted natives)
    have fusedConstant := isFused (UInt8.ofNat value.toNat)
    rw [sameValue] at fusedConstant
    exact .intoFirst isFirst isSecond fusedConstant

/-! ## Pushes and jumps -/

/-- Byte pushes are merged to one push of all bytes. -/
theorem mergePushes?_joins
    (firstSingle : first.Single)
    (secondSingle : second.Single)
    (found : mergePushes? first.bytes second.bytes = some fusion) :
    Joins first second fusion := by
  simp only [mergePushes?, opcodeOf?_bytes, Option.bind_eq_bind, Option.bind_some,
    Option.bind_eq_some_iff, Option.some.injEq, Option.ite_none_right_eq_some] at found
  obtain ⟨merged, isMerged, isPush, value, isValue, isFusion⟩ := found
  obtain ⟨others, rfl, otherLayout, -⟩ := secondSingle.exists_operands isPush
  cases others with
  | u8 last =>
      cases isValue
      cases isFusion
      unfold pushOneMore? at isMerged
      split at isMerged
      · rename_i isFirst
        obtain ⟨operands, rfl, layout, -⟩ := firstSingle.exists_operands isFirst
        cases isMerged
        cases operands with
        | u8 value0 =>
            exact .intoFirst (plain_pushU8 value0) (plain_pushU8 last)
              (plain_pushU8U8 value0 last)
        | _ => cases layout
      · rename_i isFirst
        obtain ⟨operands, rfl, layout, -⟩ := firstSingle.exists_operands isFirst
        cases isMerged
        cases operands with
        | u8u8 value0 value1 =>
            exact .intoFirst (plain_pushU8U8 value0 value1) (plain_pushU8 last)
              (plain_pushU8U8U8 value0 value1 last)
        | _ => cases layout
      · cases isMerged
  | _ => cases otherLayout

/-- What is known of a comparison and the jump that makes it. -/
theorem compareJump?_operations
    {opcode fused : Opcode}
    (isFused : opcode.compareJump? = some fused) :
    ∃ compare : Operation, compare.hasTargets = false ∧ opcode.layout = .none ∧
      fused.layout = .rel16 ∧
      (∀ natives, (⟨0, opcode, .none⟩ : Instruction).operations natives = .ok [compare]) ∧
      ∀ natives offset, (⟨0, fused, .rel16 offset⟩ : Instruction).operations natives =
        .ok [compare, .jumpIfZero (jumpTarget 0 offset)] := by
  unfold Opcode.compareJump? at isFused
  split at isFused <;> cases isFused <;>
    exact ⟨_, rfl, rfl, rfl, fun _ => rfl, fun _ _ => rfl⟩

/-- A comparison and a jump on zero are fused to the comparing jump, with the same target. -/
theorem compareJump?_joins
    (firstSingle : first.Single)
    (secondSingle : second.Single)
    (found : compareJump? first.bytes second.bytes = some fusion) :
    Joins first second fusion := by
  simp only [compareJump?, opcodeOf?_bytes, Option.bind_eq_bind, Option.bind_some,
    Option.bind_eq_some_iff, Option.some.injEq, Option.ite_none_right_eq_some] at found
  obtain ⟨fused, isFused, isJump, rfl⟩ := found
  obtain ⟨compare, targetless, noOperands, fusedLayout, compares, jumps⟩ :=
    compareJump?_operations isFused
  have isFirst := firstSingle.plain_none rfl noOperands compares
  obtain ⟨operands, rfl, layout, -⟩ := secondSingle.exists_operands isJump
  cases operands with
  | rel16 offset =>
      rw [withOpcode_bytes]
      have isSecond : (⟨0, .jz, .rel16 offset⟩ : Instruction).Means
          [.jumpIfZero (jumpTarget 0 offset)] := ⟨⟨⟨rfl, trivial⟩, rfl⟩, fun _ => rfl⟩
      have isFused : (⟨0, fused, .rel16 offset⟩ : Instruction).Means
          ([compare] ++ [.jumpIfZero (jumpTarget 0 offset)]) :=
        ⟨⟨⟨fusedLayout.symm, trivial⟩, rfl⟩, fun natives => jumps natives offset⟩
      exact .intoSecond isFirst (List.forall_mem_singleton.mpr targetless) isSecond isFused rfl
  | _ => cases layout

/-- Every fusion of two instructions gives instructions with the operations of both. -/
theorem find?_joins
    (firstSingle : first.Single)
    (secondSingle : second.Single)
    (found : find? first.bytes second.bytes = some fusion) :
    Joins first second fusion := by
  rcases rule_of_find? found with access | s16 | u8 | pushes | jump
  · exact addressAccess?_joins firstSingle secondSingle access
  · exact arithS16?_joins firstSingle secondSingle s16
  · exact arithU8?_joins firstSingle secondSingle u8
  · exact mergePushes?_joins firstSingle secondSingle pushes
  · exact compareJump?_joins firstSingle secondSingle jump

end Fusion
end ScriptBytecode
