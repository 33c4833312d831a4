import ScriptBytecode.Arena.Fusion
import ScriptBytecode.Proofs.SymbolicOperations

/-!
# What fusion rules preserve

Two neighbouring statements are fused to statements that have the operations of both of them, one
after the other, whatever the addresses of labels and functions.  There is a lemma for each rule.
-/

namespace ScriptBytecode

namespace Statement

variable {statement : Statement} {opcode : Opcode}

/-- Statements in place of others have the operations of these. -/
def SameOperations (statements others : List Statement) : Prop :=
  ∀ natives, (statements.mapM (operations? natives)).map List.flatten =
    (others.mapM (operations? natives)).map List.flatten

/-- One statement has the operations of two others. -/
theorem sameOperations_append
    {fused first second : Statement} {left right : List SymbolicOperation}
    (firstOperations : ∀ natives, first.operations? natives = some left)
    (secondOperations : ∀ natives, second.operations? natives = some right)
    (fusedOperations : ∀ natives, fused.operations? natives = some (left ++ right)) :
    SameOperations [fused] [first, second] := by
  intro natives
  simp [firstOperations, secondOperations, fusedOperations]

theorem opcodeOf?_fragment (statement : Statement) :
    opcodeOf? statement.fragment.bytes = some statement.opcode := by
  simp [opcodeOf?, statement.getElem?_zero_fragment]

/-- A statement whose opcode takes no target is a plain one. -/
theorem Encodable.eq_plain
    (encodable : statement.Encodable)
    (isOpcode : statement.opcode = opcode)
    (noJump : opcode.layout ≠ .rel16)
    (noSwitch : opcode.layout ≠ .switch)
    (noCall : opcode ≠ .call) :
    ∃ operands, statement = .plain opcode operands ∧ operands.layout = opcode.layout := by
  subst isOpcode
  cases statement with
  | plain opcode operands => exact ⟨operands, rfl, encodable.emittable.layout⟩
  | jump opcode label => exact absurd encodable.emittable.layout noJump
  | call function => exact absurd rfl noCall
  | switch cases => exact absurd rfl noSwitch

/-- A statement whose opcode takes no operands is the plain one of its opcode. -/
theorem Encodable.eq_plain_none
    (encodable : statement.Encodable)
    (isOpcode : statement.opcode = opcode)
    (noOperands : opcode.layout = .none) :
    statement = .plain opcode .none := by
  have noCall : opcode ≠ .call := by
    rintro rfl
    cases noOperands
  obtain ⟨operands, isPlain, layout⟩ := encodable.eq_plain isOpcode
    (by rw [noOperands]; decide) (by rw [noOperands]; decide) noCall
  rw [noOperands] at layout
  cases operands with
  | none => exact isPlain
  | _ => cases layout

/-- A statement whose opcode jumps is a jump to a label or one with a known offset. -/
theorem Encodable.eq_jump
    (encodable : statement.Encodable)
    (isJump : statement.opcode.layout = .rel16) :
    (∃ label, statement = .jump statement.opcode label) ∨
      ∃ offset, statement = .plain statement.opcode (.rel16 offset) := by
  cases statement with
  | plain opcode operands =>
      have layout : operands.layout = .rel16 := encodable.emittable.layout.trans isJump
      cases operands with
      | rel16 offset => exact .inr ⟨offset, rfl⟩
      | _ => cases layout
  | jump opcode label => exact .inl ⟨label, rfl⟩
  | call function => cases isJump
  | switch cases => cases isJump

theorem withOpcode_fragment_plain (opcode other : Opcode) (operands : Operands) :
    Fusion.withOpcode (plain opcode operands).fragment.bytes other =
      (plain other operands).fragment.bytes := by
  simp [Fusion.withOpcode, fragment]

/-- A statement that neither enters a function nor calls a native. -/
def Ordinary (statement : Statement) : Prop :=
  statement.opcode.layout ≠ .enter ∧ statement.opcode.layout ≠ .native

/-- A plain statement with operands of a few bytes, none of them a target. -/
structure Short (statement : Statement) : Prop where
  encodable : statement.Encodable
  ordinary : statement.Ordinary
  targets : statement.SymbolicTargets

theorem short_of_layout
    {operands : Operands}
    (layout : operands.layout = opcode.layout)
    (isShort : opcode.layout ∈ [OperandLayout.u8, .u8u8, .u8u8u8, .u16, .u24, .s16])
    (noCall : opcode ≠ .call) :
    (plain opcode operands).Short := by
  have notIn : ∀ other, other ∉ [OperandLayout.u8, .u8u8, .u8u8u8, .u16, .u24, .s16] →
      opcode.layout ≠ other := by
    rintro other notShort rfl
    exact notShort isShort
  rw [← layout] at isShort
  refine ⟨⟨⟨layout, ?_⟩, ?_⟩, ⟨notIn _ (by decide), notIn _ (by decide)⟩,
    notIn _ (by decide), notIn _ (by decide), noCall⟩
  · cases operands <;> first | exact Nat.zero_lt_succ _ | simp [Operands.layout] at isShort
  · cases operands <;> first | exact Nat.zero_le _ | simp [Operands.layout] at isShort

/-- Statements can be put in place of others: they can be encoded and are ordinary ones, and if the
others have symbolic targets, so do they, and they have the same operations. -/
structure Replaces (statements others : List Statement) : Prop where
  encodable : ∀ statement ∈ statements, statement.Encodable
  ordinary : ∀ statement ∈ statements, statement.Ordinary
  symbolic : (∀ statement ∈ others, statement.SymbolicTargets) →
    (∀ statement ∈ statements, statement.SymbolicTargets) ∧ SameOperations statements others

theorem replaces_of_short
    {statements others : List Statement}
    (short : ∀ statement ∈ statements, statement.Short)
    (same : SameOperations statements others) :
    Replaces statements others where
  encodable statement member := (short statement member).encodable
  ordinary statement member := (short statement member).ordinary
  symbolic _ := ⟨fun statement member => (short statement member).targets, same⟩

end Statement

namespace Fusion

open Statement

variable {opcode : Opcode} {first second : Statement} {operands : Operands} {fusion : Fusion}

/-- What a fusion of two statements gives: statements in place of both. -/
inductive Sound (first second : Statement) : Fusion → Prop
  | intoFirst
      (fused : Statement)
      (replaces : Replaces [fused] [first, second])
      (references : fused.fragment.references = first.fragment.references) :
      Sound first second (.intoFirst fused.fragment.bytes)
  | intoSecond
      (fused : Statement)
      (replaces : Replaces [fused] [first, second])
      (references : fused.fragment.references = second.fragment.references) :
      Sound first second (.intoSecond fused.fragment.bytes)
  | both
      (newFirst newSecond : Statement)
      (replaces : Replaces [newFirst, newSecond] [first, second])
      (firstReferences : newFirst.fragment.references = first.fragment.references)
      (secondReferences : newSecond.fragment.references = second.fragment.references) :
      Sound first second (.both newFirst.fragment.bytes newSecond.fragment.bytes)

/-- One short statement with the operations of two others can be put in their place. -/
theorem replaces_append
    {fused : Statement}
    (short : fused.Short)
    {left right : List SymbolicOperation}
    (firstOperations : ∀ natives, first.operations? natives = some left)
    (secondOperations : ∀ natives, second.operations? natives = some right)
    (fusedOperations : ∀ natives, fused.operations? natives = some (left ++ right)) :
    Replaces [fused] [first, second] :=
  replaces_of_short (by simpa using short)
    (sameOperations_append firstOperations secondOperations fusedOperations)

/-! ## Address pushes -/

/-- The opcodes that push an address and access it are variants of the one that only pushes it. -/
theorem accessVariants?_eq_some
    {loading storing : Opcode}
    (variants : opcode.accessVariants? = some (loading, storing)) :
    ∃ kind, opcode.addressForm? = some ⟨kind, .none⟩ ∧
      loading.addressForm? = some ⟨kind, .load⟩ ∧ storing.addressForm? = some ⟨kind, .store⟩ ∧
      loading.layout = opcode.layout ∧ storing.layout = opcode.layout ∧
      opcode.layout ∈ [OperandLayout.u8, .u16, .u24, .s16] := by
  cases opcode <;> cases variants <;> exact ⟨_, rfl, rfl, rfl, rfl, rfl, by decide⟩

theorem immediate?_of_layout
    (layout : operands.layout ∈ [OperandLayout.u8, .u16, .u24, .s16]) :
    ∃ immediate, operands.stored.immediate? = some immediate :=
  Operands.exists_immediate? (by rwa [Operands.layout_stored])

/-- The operations of an addressing statement. -/
theorem operations?_address
    {form : AddressForm} {immediate : Int}
    (isForm : opcode.addressForm? = some form)
    (isImmediate : operands.stored.immediate? = some immediate)
    (natives : Array UInt64) :
    (plain opcode operands).operations? natives =
      some ((form.operations immediate).map fun operation _ _ => operation) := by
  simp [Statement.operations?, Instruction.operations, isForm, isImmediate, Except.toOption]

theorem accessOf?_eq_some
    {access : Access}
    (isAccess : accessOf? opcode = some access) :
    (opcode = .load ∧ access = .load) ∨ (opcode = .store ∧ access = .store) := by
  unfold accessOf? at isAccess
  split at isAccess
  · exact .inl ⟨rfl, (Option.some.inj isAccess).symm⟩
  · exact .inr ⟨rfl, (Option.some.inj isAccess).symm⟩
  · cases isAccess

/-- An address push and an access are fused to the addressing statement with that access. -/
theorem addressAccess?_sound
    (firstEncodable : first.Encodable)
    (secondEncodable : second.Encodable)
    (found : addressAccess? first.fragment.bytes second.fragment.bytes = some fusion) :
    Sound first second fusion := by
  simp only [addressAccess?, opcodeOf?_fragment, Option.bind_eq_bind, Option.bind_some,
    Option.bind_eq_some_iff] at found
  obtain ⟨access, isAccess, fused, isFused, isFusion⟩ := found
  obtain ⟨⟨loading, storing⟩, variants, rfl⟩ := Option.map_eq_some_iff.mp isFused
  cases isFusion
  obtain ⟨kind, isPush, isLoading, isStoring, loadLayout, storeLayout, layout⟩ :=
    accessVariants?_eq_some variants
  have noJump : first.opcode.layout ≠ .rel16 := by
    intro same
    simp [same] at layout
  have noSwitch : first.opcode.layout ≠ .switch := by
    intro same
    simp [same] at layout
  have noCall : first.opcode ≠ .call := by
    intro same
    rw [same] at isPush
    cases isPush
  obtain ⟨operands, isFirst, operandLayout⟩ :=
    firstEncodable.eq_plain rfl noJump noSwitch noCall
  generalize first.opcode = opcode at *
  subst isFirst
  rw [← operandLayout] at layout
  obtain ⟨immediate, isImmediate⟩ := immediate?_of_layout layout
  have pushes := operations?_address isPush isImmediate
  rw [withOpcode_fragment_plain]
  rw [operandLayout] at layout
  have isShort : opcode.layout ∈ [OperandLayout.u8, .u8u8, .u8u8u8, .u16, .u24, .s16] := by
    simp only [List.mem_cons] at layout ⊢
    grind
  rcases accessOf?_eq_some isAccess with ⟨isLoad, rfl⟩ | ⟨isStore, rfl⟩
  · rw [secondEncodable.eq_plain_none isLoad rfl]
    have short : (plain loading operands).Short := by
      refine short_of_layout (operandLayout.trans loadLayout.symm) (loadLayout ▸ isShort) ?_
      rintro rfl
      cases isLoading
    refine .intoFirst _ (replaces_append short pushes (fun natives => rfl) fun natives => ?_) rfl
    simp [operations?_address isLoading isImmediate, AddressForm.operations, Access.operations]
  · rw [secondEncodable.eq_plain_none isStore rfl]
    have short : (plain storing operands).Short := by
      refine short_of_layout (operandLayout.trans storeLayout.symm) (storeLayout ▸ isShort) ?_
      rintro rfl
      cases isStoring
    refine .intoFirst _ (replaces_append short pushes (fun natives => rfl) fun natives => ?_) rfl
    simp [operations?_address isStoring isImmediate, AddressForm.operations, Access.operations]

/-! ## Arithmetic with an immediate -/

/-- What is known of an arithmetic opcode and its immediate form. -/
theorem withImmediate?_eq_some
    {fused : Opcode} {layout : OperandLayout}
    (isFused : opcode.withImmediate? layout = some fused) :
    ∃ arith, (∀ natives, (plain opcode .none).operations? natives =
        some [fun _ _ => ImmediateArith.operation arith]) ∧
      opcode.layout = .none ∧ fused.immediateArith? = some arith ∧ fused.addressForm? = none ∧
      fused.layout = layout ∧ fused ≠ .call := by
  unfold Opcode.withImmediate? at isFused
  split at isFused
  · cases isFused
    exact ⟨.add, fun _ => rfl, rfl, rfl, rfl, rfl, by decide⟩
  · cases isFused
    exact ⟨.mul, fun _ => rfl, rfl, rfl, rfl, rfl, by decide⟩
  · cases isFused
    exact ⟨.add, fun _ => rfl, rfl, rfl, rfl, rfl, by decide⟩
  · cases isFused
    exact ⟨.mul, fun _ => rfl, rfl, rfl, rfl, rfl, by decide⟩
  · cases isFused

/-- The operations of an arithmetic statement with an immediate. -/
theorem operations?_immediate
    {arith : ImmediateArith} {immediate : Int}
    (isArith : opcode.immediateArith? = some arith)
    (notAddress : opcode.addressForm? = none)
    (isImmediate : operands.stored.immediate? = some immediate)
    (natives : Array UInt64) :
    (plain opcode operands).operations? natives =
      some [fun _ _ => .pushInt immediate, fun _ _ => arith.operation] := by
  simp [Statement.operations?, Instruction.operations, isArith, notAddress, isImmediate,
    Except.toOption]

/-- A 16-bit push and arithmetic are fused to the arithmetic with an immediate. -/
theorem arithS16?_sound
    (firstEncodable : first.Encodable)
    (secondEncodable : second.Encodable)
    (found : arithS16? first.fragment.bytes second.fragment.bytes = some fusion) :
    Sound first second fusion := by
  simp only [arithS16?, opcodeOf?_fragment, Option.bind_eq_bind, Option.bind_some,
    Option.bind_eq_some_iff, Option.some.injEq, Option.ite_none_right_eq_some] at found
  obtain ⟨fused, isFused, isPush, rfl⟩ := found
  obtain ⟨arith, arithOperations, noOperands, isArith, notAddress, fusedLayout, noCall⟩ :=
    withImmediate?_eq_some isFused
  obtain ⟨operands, rfl, layout⟩ :=
    firstEncodable.eq_plain isPush (by decide) (by decide) (by decide)
  rw [secondEncodable.eq_plain_none rfl noOperands, withOpcode_fragment_plain]
  cases operands with
  | s16 value =>
      have short : (plain fused (.s16 value)).Short :=
        short_of_layout fusedLayout.symm (by simp [fusedLayout]) noCall
      exact .intoFirst _ (replaces_append short (fun _ => rfl) arithOperations
        (operations?_immediate isArith notAddress rfl)) rfl
  | _ => cases layout

/-- A literal push without operands has the operation of its constant. -/
theorem intConstant?_eq_some
    {value : Int}
    (isConstant : opcode.intConstant? = some value) :
    opcode.layout = .none ∧ value < 256 ∧
      ∀ natives, (plain opcode .none).operations? natives = some [fun _ _ => .pushInt value] := by
  unfold Opcode.intConstant? at isConstant
  split at isConstant <;> cases isConstant <;> exact ⟨rfl, by decide, fun _ => rfl⟩

/-- The last byte pushed and arithmetic are fused to the arithmetic with an immediate. -/
theorem arithU8?_sound
    (firstEncodable : first.Encodable)
    (secondEncodable : second.Encodable)
    (found : arithU8? first.fragment.bytes second.fragment.bytes = some fusion) :
    Sound first second fusion := by
  simp only [arithU8?, opcodeOf?_fragment, Option.bind_eq_bind, Option.bind_some,
    Option.bind_eq_some_iff] at found
  obtain ⟨fused, isFused, found⟩ := found
  obtain ⟨arith, arithOperations, noOperands, isArith, notAddress, fusedLayout, noCall⟩ :=
    withImmediate?_eq_some isFused
  rw [secondEncodable.eq_plain_none rfl noOperands]
  have fusedShort : ∀ value, (plain fused (.u8 value)).Short :=
    fun value => short_of_layout fusedLayout.symm (by simp [fusedLayout]) noCall
  have fusedOperations : ∀ value natives, (plain fused (.u8 value)).operations? natives =
      some [fun _ _ => .pushInt value.toNat, fun _ _ => arith.operation] :=
    fun value => operations?_immediate isArith notAddress rfl
  split at found
  · rename_i isPush
    obtain ⟨operands, rfl, layout⟩ :=
      firstEncodable.eq_plain isPush (by decide) (by decide) (by decide)
    cases operands with
    | u8 value =>
        cases found
        exact .intoFirst _ (replaces_append (fusedShort value) (fun _ => rfl) arithOperations
          (fusedOperations value)) rfl
    | _ => cases layout
  · rename_i isPush
    obtain ⟨operands, rfl, layout⟩ :=
      firstEncodable.eq_plain isPush (by decide) (by decide) (by decide)
    cases operands with
    | u8u8 value0 value1 =>
        cases found
        have rest : (plain .pushConstU8 (.u8 value0)).Short :=
          short_of_layout rfl (by decide) (by decide)
        refine .both _ _ (replaces_of_short (List.forall_mem_cons.mpr ⟨rest,
          List.forall_mem_singleton.mpr (fusedShort value1)⟩) fun natives => ?_) rfl rfl
        simp [fusedOperations, arithOperations]
        rfl
    | _ => cases layout
  · rename_i isPush
    obtain ⟨operands, rfl, layout⟩ :=
      firstEncodable.eq_plain isPush (by decide) (by decide) (by decide)
    cases operands with
    | u8u8u8 value0 value1 value2 =>
        cases found
        have rest : (plain .pushConstU8U8 (.u8u8 value0 value1)).Short :=
          short_of_layout rfl (by decide) (by decide)
        refine .both _ _ (replaces_of_short (List.forall_mem_cons.mpr ⟨rest,
          List.forall_mem_singleton.mpr (fusedShort value2)⟩) fun natives => ?_) rfl rfl
        simp [fusedOperations, arithOperations]
        rfl
    | _ => cases layout
  · simp only [Option.bind_eq_some_iff, Option.ite_none_right_eq_some] at found
    obtain ⟨value, isConstant, notNegative, isFusion⟩ := found
    cases isFusion
    obtain ⟨pushLayout, small, pushes⟩ := intConstant?_eq_some isConstant
    have sameValue : ((UInt8.ofNat value.toNat).toNat : Int) = value := by
      rw [UInt8.toNat_ofNat']
      omega
    generalize isPush : first.opcode = opcode at *
    rw [firstEncodable.eq_plain_none isPush pushLayout]
    refine .intoFirst _
      (replaces_append (fusedShort _) pushes arithOperations fun natives => ?_) rfl
    rw [fusedOperations, sameValue]
    rfl

/-! ## Pushes and jumps -/

/-- Byte pushes are merged to one push of all bytes. -/
theorem mergePushes?_sound
    (firstEncodable : first.Encodable)
    (secondEncodable : second.Encodable)
    (found : mergePushes? first.fragment.bytes second.fragment.bytes = some fusion) :
    Sound first second fusion := by
  simp only [mergePushes?, opcodeOf?_fragment, Option.bind_eq_bind, Option.bind_some,
    Option.bind_eq_some_iff, Option.some.injEq, Option.ite_none_right_eq_some] at found
  obtain ⟨merged, isMerged, isPush, value, isValue, isFusion⟩ := found
  obtain ⟨operands, rfl, layout⟩ :=
    secondEncodable.eq_plain isPush (by decide) (by decide) (by decide)
  cases operands with
  | u8 last =>
      cases isValue
      cases isFusion
      unfold pushOneMore? at isMerged
      split at isMerged
      · rename_i isFirst
        cases isMerged
        obtain ⟨operands, rfl, layout⟩ :=
          firstEncodable.eq_plain isFirst (by decide) (by decide) (by decide)
        cases operands with
        | u8 value0 =>
            have merged : (plain .pushConstU8U8 (.u8u8 value0 last)).Short :=
              short_of_layout rfl (by decide) (by decide)
            exact .intoFirst _
              (replaces_append merged (fun _ => rfl) (fun _ => rfl) (fun _ => rfl)) rfl
        | _ => cases layout
      · rename_i isFirst
        cases isMerged
        obtain ⟨operands, rfl, layout⟩ :=
          firstEncodable.eq_plain isFirst (by decide) (by decide) (by decide)
        cases operands with
        | u8u8 value0 value1 =>
            have merged : (plain .pushConstU8U8U8 (.u8u8u8 value0 value1 last)).Short :=
              short_of_layout rfl (by decide) (by decide)
            exact .intoFirst _
              (replaces_append merged (fun _ => rfl) (fun _ => rfl) (fun _ => rfl)) rfl
        | _ => cases layout
      · cases isMerged
  | _ => cases layout

/-- What is known of a comparison and the jump that makes it. -/
theorem compareJump?_eq_some
    {fused : Opcode}
    (isFused : opcode.compareJump? = some fused) :
    ∃ compare, opcode.layout = .none ∧ fused.layout = .rel16 ∧
      (∀ natives, (plain opcode .none).operations? natives = some [fun _ _ => compare]) ∧
      ∀ natives label, (jump fused label).operations? natives =
        some [fun _ _ => compare, fun labelAt _ => .jumpIfZero (labelAt label)] := by
  unfold Opcode.compareJump? at isFused
  split at isFused <;> cases isFused <;> exact ⟨_, rfl, rfl, fun _ => rfl, fun _ _ => rfl⟩

/-- A comparison and a jump on zero are fused to the comparing jump. -/
theorem compareJump?_sound
    (firstEncodable : first.Encodable)
    (secondEncodable : second.Encodable)
    (found : compareJump? first.fragment.bytes second.fragment.bytes = some fusion) :
    Sound first second fusion := by
  simp only [compareJump?, opcodeOf?_fragment, Option.bind_eq_bind, Option.bind_some,
    Option.bind_eq_some_iff, Option.some.injEq, Option.ite_none_right_eq_some] at found
  obtain ⟨fused, isFused, isJump, rfl⟩ := found
  obtain ⟨compare, noOperands, fusedLayout, compares, jumps⟩ := compareJump?_eq_some isFused
  rw [firstEncodable.eq_plain_none rfl noOperands]
  have ordinary : ∀ {statement : Statement}, statement.opcode.layout = .rel16 →
      ∀ other ∈ [statement], other.Ordinary := by
    intro statement layout other member
    rw [List.mem_singleton.mp member]
    exact ⟨by rw [layout]; decide, by rw [layout]; decide⟩
  rcases secondEncodable.eq_jump (by rw [isJump]; rfl) with
    ⟨label, isSecond⟩ | ⟨offset, isSecond⟩
  · rw [isJump] at isSecond
    subst isSecond
    have bytes : withOpcode (jump .jz label).fragment.bytes fused =
        (jump fused label).fragment.bytes := by
      simp [withOpcode, fragment]
    rw [bytes]
    refine .intoSecond (jump fused label)
      ⟨?_, ordinary fusedLayout, fun _ => ⟨by simp [SymbolicTargets], ?_⟩⟩ rfl
    · simpa using ⟨⟨fusedLayout, Nat.zero_lt_succ _⟩, Nat.zero_le _⟩
    · exact sameOperations_append compares (fun _ => rfl) fun natives => jumps natives label
  · rw [isJump] at isSecond
    subst isSecond
    rw [withOpcode_fragment_plain]
    refine .intoSecond (plain fused (.rel16 offset))
      ⟨?_, ordinary fusedLayout, fun symbolic => ?_⟩ rfl
    · simpa using ⟨⟨fusedLayout.symm, Nat.zero_lt_succ _⟩, Nat.zero_le _⟩
    · -- A jump with a known offset has no symbolic target.
      exact absurd rfl (symbolic (.plain .jz (.rel16 offset)) (by simp)).1

/-- A fusion comes from one of the rules. -/
theorem rule_of_find?
    {first second : Bytes}
    (found : find? first second = some fusion) :
    addressAccess? first second = some fusion ∨ arithS16? first second = some fusion ∨
      arithU8? first second = some fusion ∨ mergePushes? first second = some fusion ∨
      compareJump? first second = some fusion := by
  simp only [find?, Option.orElse_eq_orElse, Option.orElse_eq_or, Option.or_eq_some_iff] at found
  exact found.imp_right fun later => later.2.imp_right fun later =>
    later.2.imp_right fun later => later.2.imp_right And.right

/-- Every fusion of two statements gives statements with the operations of both. -/
theorem find?_sound
    (firstEncodable : first.Encodable)
    (secondEncodable : second.Encodable)
    (found : find? first.fragment.bytes second.fragment.bytes = some fusion) :
    Sound first second fusion := by
  rcases rule_of_find? found with access | s16 | u8 | pushes | jump
  · exact addressAccess?_sound firstEncodable secondEncodable access
  · exact arithS16?_sound firstEncodable secondEncodable s16
  · exact arithU8?_sound firstEncodable secondEncodable u8
  · exact mergePushes?_sound firstEncodable secondEncodable pushes
  · exact compareJump?_sound firstEncodable secondEncodable jump

end Fusion
end ScriptBytecode
