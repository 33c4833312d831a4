import Mathlib.Algebra.Ring.Nat
import Mathlib.Data.List.Forall2
import ScriptBytecode.Proofs.Statements
import ScriptBytecode.Proofs.Utf8Text
import ScriptBytecode.Proofs.WalkedCode
import ScriptBytecode.Statement.Emission

/-!
# Streams of emitted instructions

Instructions that are emitted one after the other are found again by a walk over their bytes, each
with the operands it was emitted with.  What the fields cannot hold is lost in a definite way: the
high bits of a 24-bit operand and of the counts of a native, and the end of a long name.  An
operand that refers to a name is zero until it is resolved.
-/

namespace ScriptBytecode

/-! ## The names of functions -/

/-- The longest prefix of a text, in whole characters, that has at most `limit` bytes in UTF-8. -/
structure LongestPrefix (limit : Nat) (text part : String) : Prop where
  isPrefix : part.toList <+: text.toList
  fits : part.utf8ByteSize ≤ limit
  longest : ∀ other : String, other.toList <+: text.toList → other.utf8ByteSize ≤ limit →
    other.length ≤ part.length

namespace Utf8

theorem length_encodeChars (text : String) :
    (encodeChars text.toList).length = text.utf8ByteSize := by
  rw [← toList_encode]
  simp [encode]

theorem truncate_isPrefix (limit : Nat) (chars : List Char) : truncate limit chars <+: chars := by
  induction chars generalizing limit with
  | nil => exact List.prefix_refl []
  | cons char rest ih =>
      rw [truncate]
      split
      · exact List.cons_prefix_cons.mpr ⟨rfl, ih _⟩
      · exact List.nil_prefix

/-- No prefix with as few bytes is longer than the one that characters are cut to. -/
theorem length_le_length_truncate
    {limit : Nat} {chars part : List Char}
    (isPrefix : part <+: chars)
    (fits : (encodeChars part).length ≤ limit) :
    part.length ≤ (truncate limit chars).length := by
  induction chars generalizing limit part with
  | nil =>
      rw [List.prefix_nil.mp isPrefix]
      exact Nat.le_refl _
  | cons char rest ih =>
      rcases List.prefix_cons_iff.mp isPrefix with rfl | ⟨others, rfl, restPrefix⟩
      · exact Nat.zero_le _
      · rw [encodeChars, List.flatMap_cons, List.length_append,
          String.length_utf8EncodeChar] at fits
        have charFits : char.utf8Size ≤ limit := by omega
        have othersFit : (encodeChars others).length ≤ limit - char.utf8Size := by
          unfold encodeChars
          omega
        rw [truncate, if_pos charFits, List.length_cons, List.length_cons]
        exact Nat.succ_le_succ (ih restPrefix othersFit)

theorem longestPrefix_truncate (limit : Nat) (text : String) :
    LongestPrefix limit text (String.ofList (truncate limit text.toList)) where
  isPrefix := by
    rw [String.toList_ofList]
    exact truncate_isPrefix limit text.toList
  fits := by
    rw [← length_encodeChars, String.toList_ofList]
    exact length_encodeChars_truncate limit text.toList
  longest := by
    intro other isPrefix fits
    rw [← length_encodeChars] at fits
    rw [← String.length_toList, ← String.length_toList, String.toList_ofList]
    exact length_le_length_truncate isPrefix fits

end Utf8

/-! ## What is read back -/

namespace Emission

/-- An opcode, if it is given, takes operands of the layout that the emission is for. -/
def OwnLayout : Emission → Prop
  | .bare opcode => opcode.layout = .none
  | .u8 opcode _ => opcode.layout = .u8
  | .u8u8 opcode _ _ => opcode.layout = .u8u8
  | .u8u8u8 opcode _ _ _ => opcode.layout = .u8u8u8
  | .s16 opcode _ => opcode.layout = .s16
  | .u16 opcode _ => opcode.layout = .u16
  | .u24 opcode _ => opcode.layout = .u24
  | .u32 opcode _ => opcode.layout = .u32
  | .f32 opcode _ => opcode.layout = .f32
  | .rel16 opcode _ => opcode.layout = .rel16
  | .jump opcode _ => opcode.layout = .rel16
  | _ => True

/-- Number of switch cases of an emission; none for those that are no switch. -/
def caseCount : Emission → Nat
  | .switch cases => cases.length
  | .switchOffsets cases => cases.length
  | _ => 0

/-- The opcode and the operands that are read back from an emission. -/
inductive ReadsAs : Emission → Opcode → Operands → Prop
  | bare (opcode : Opcode) : ReadsAs (.bare opcode) opcode .none
  | u8 (opcode : Opcode) (value : UInt8) : ReadsAs (.u8 opcode value) opcode (.u8 value)
  | u8u8 (opcode : Opcode) (first second : UInt8) :
      ReadsAs (.u8u8 opcode first second) opcode (.u8u8 first second)
  | u8u8u8 (opcode : Opcode) (first second third : UInt8) :
      ReadsAs (.u8u8u8 opcode first second third) opcode (.u8u8u8 first second third)
  | s16 (opcode : Opcode) (value : Int16) : ReadsAs (.s16 opcode value) opcode (.s16 value)
  | u16 (opcode : Opcode) (value : UInt16) : ReadsAs (.u16 opcode value) opcode (.u16 value)
  | u24
      (opcode : Opcode)
      (value low : UInt32)
      (isLow : low.toNat = value.toNat % 2 ^ 24) :
      ReadsAs (.u24 opcode value) opcode (.u24 low)
  | u32 (opcode : Opcode) (value : UInt32) : ReadsAs (.u32 opcode value) opcode (.u32 value)
  | f32 (opcode : Opcode) (value : Binary32) : ReadsAs (.f32 opcode value) opcode (.f32 value)
  | rel16 (opcode : Opcode) (offset : Int16) :
      ReadsAs (.rel16 opcode offset) opcode (.rel16 offset)
  | jump (opcode : Opcode) (label : String) : ReadsAs (.jump opcode label) opcode (.rel16 0)
  | call (function : String) : ReadsAs (.call function) .call (.u24 0)
  | enter
      (parameters : UInt8)
      (frameSize : UInt16)
      (name : Option String)
      (nameField : List UInt8)
      (isName : Option.Rel (LongestPrefix 254) name (Operands.enterName? nameField)) :
      ReadsAs (.enter parameters frameSize name) .enter (.enter parameters frameSize nameField)
  | leave (parameters returns : UInt8) :
      ReadsAs (.leave parameters returns) .leave (.u8u8 parameters returns)
  | native
      (parameters returns counts : UInt8)
      (index : UInt16)
      (lowParameters : (Operands.nativeParameters counts).toNat = parameters.toNat % 2 ^ 6)
      (lowReturns : (Operands.nativeReturns counts).toNat = returns.toNat % 2 ^ 2) :
      ReadsAs (.native parameters returns index) .native (.native counts index)
  | switch (cases : List (UInt32 × String)) :
      ReadsAs (.switch cases) .switch (.switch (cases.map fun case => (case.1, 0)))
  | switchOffsets (cases : List (UInt32 × Int16)) :
      ReadsAs (.switchOffsets cases) .switch (.switch cases)
  | pushLiteral
      (value : Int32)
      (opcode : Opcode)
      (isConstant : opcode.intConstant? = some value.toInt) :
      ReadsAs (.pushInt value) opcode .none
  | pushU8
      (value : Int32)
      (byte : UInt8)
      (same : (byte.toNat : Int) = value.toInt) :
      ReadsAs (.pushInt value) .pushConstU8 (.u8 byte)
  | pushS16
      (value : Int32)
      (word : Int16)
      (same : word.toInt = value.toInt) :
      ReadsAs (.pushInt value) .pushConstS16 (.s16 word)
  | pushU24
      (value : Int32)
      (word : UInt32)
      (same : (word.toNat : Int) = value.toInt) :
      ReadsAs (.pushInt value) .pushConstU24 (.u24 word)
  | pushU32 (value : Int32) : ReadsAs (.pushInt value) .pushConstU32 (.u32 value.toUInt32)
  | pushFloatLiteral
      (value : Binary32)
      (opcode : Opcode)
      (isConstant : opcode.floatConstant? = some value) :
      ReadsAs (.pushFloat value) opcode .none
  | pushF32 (value : Binary32) : ReadsAs (.pushFloat value) .pushConstF (.f32 value)

end Emission

namespace Statement

/-- The instruction of a statement at an address, with zeros for its references. -/
def blank (address : Nat) (statement : Statement) : Instruction :=
  statement.resolved address (fun _ _ => 0) fun _ => 0

theorem resolvedCases_zero (offset : Nat) (cases : List (UInt32 × String)) :
    resolvedCases (fun _ _ => 0) offset cases = cases.map fun case => (case.1, 0) := by
  induction cases generalizing offset with
  | nil => rfl
  | cons case rest ih =>
      rw [resolvedCases, ih]
      rfl

/-- The bytes of a statement are those of its instruction with zeros for the references. -/
theorem bytes_blank (address : Nat) (statement : Statement) :
    (statement.blank address).bytes = statement.fragment.bytes := by
  cases statement with
  | plain opcode operands => simp [blank, resolved, Instruction.bytes, fragment]
  | jump opcode label =>
      have zeros : (Operands.rel16 0).toBytes = [0, 0] := by decide
      simp only [blank, resolved, Instruction.bytes, fragment, zeros]
  | call function =>
      have zeros : (Operands.u24 0).toBytes = [0, 0, 0] := by decide
      simp only [blank, resolved, Instruction.bytes, fragment, zeros]
  | switch cases =>
      simp only [blank, resolved, Instruction.bytes, fragment, resolvedCases_zero]

theorem blank_wellFormed
    {statement : Statement}
    (encodable : statement.Encodable)
    (address : Nat) :
    (statement.blank address).WellFormed :=
  resolved_wellFormed encodable.emittable encodable.fewCases address _ _ fun _ _ => by decide

/-- The instructions of statements one after the other from an address on, with zeros for their
references. -/
def blanks : (address : Nat) → List Statement → List Instruction
  | _, [] => []
  | address, statement :: rest =>
    statement.blank address :: blanks (address + statement.fragment.bytes.size) rest

theorem map_bytes_blanks (address : Nat) (statements : List Statement) :
    (blanks address statements).map Instruction.bytes =
      statements.map fun statement => statement.fragment.bytes := by
  induction statements generalizing address with
  | nil => rfl
  | cons statement rest ih =>
      rw [blanks, List.map_cons, ih, bytes_blank, List.map_cons]

theorem consecutive_blanks (address : Nat) (statements : List Statement) :
    Instruction.Consecutive address (blanks address statements) := by
  induction statements generalizing address with
  | nil => trivial
  | cons statement rest ih =>
      have stop : (statement.blank address).stop = address + statement.fragment.bytes.size := by
        rw [Instruction.stop, Instruction.size, bytes_blank, blank, ip_resolved]
      refine ⟨ip_resolved statement address _ _, ?_⟩
      rw [stop]
      exact ih _

theorem blanks_wellFormed
    {statements : List Statement}
    (encodable : ∀ statement ∈ statements, statement.Encodable)
    (address : Nat) :
    ∀ instruction ∈ blanks address statements, instruction.WellFormed := by
  induction statements generalizing address with
  | nil => simp [blanks]
  | cons statement rest ih =>
      obtain ⟨here, later⟩ := List.forall_mem_cons.mp encodable
      rw [blanks, List.forall_mem_cons]
      exact ⟨blank_wellFormed here address, ih later _⟩

end Statement

namespace Emission

/-! ## The statements of emissions -/

theorem layout_literalPushes :
    ∀ opcode ∈ Statement.literalPushes, opcode.layout = .none := by
  decide

/-- The push of an integer has an encoding that is read back as such a push. -/
theorem pushInt_cases (value : Int32) :
    ∃ opcode operands, Statement.pushInt value = .plain opcode operands ∧
      (Statement.plain opcode operands).Emittable ∧
      (Statement.plain opcode operands).caseCount = 0 ∧
      ReadsAs (.pushInt value) opcode operands.stored := by
  unfold Statement.pushInt
  simp only
  split
  · rename_i opcode found
    have layout := layout_literalPushes opcode (List.mem_of_find?_eq_some found)
    have isConstant : opcode.intConstant? = some value.toInt := by
      simpa using List.find?_some found
    exact ⟨opcode, .none, rfl, ⟨layout.symm, Nat.zero_lt_succ _⟩, rfl,
      .pushLiteral value opcode isConstant⟩
  · split
    · rename_i inRange
      refine ⟨_, _, rfl, ⟨rfl, Nat.zero_lt_succ _⟩, rfl, .pushU8 value _ ?_⟩
      rw [UInt8.toNat_ofNat']
      omega
    · split
      · rename_i inRange
        refine ⟨_, _, rfl, ⟨rfl, Nat.zero_lt_succ _⟩, rfl, .pushS16 value _ ?_⟩
        exact Int16.toInt_ofInt_of_le inRange.1 (by omega)
      · split
        · rename_i inRange
          refine ⟨_, _, rfl, ⟨rfl, Nat.zero_lt_succ _⟩, rfl, .pushU24 value _ ?_⟩
          have notNegative : 0 ≤ value := Int32.le_iff_toInt_le.mpr inRange.1
          have sameBits : value.toUInt32.toNat = value.toInt.toNat :=
            Int32.toNat_toUInt32_of_le notNegative
          rw [UInt32.toNat_ofNat', sameBits]
          omega
        · exact ⟨_, _, rfl, ⟨rfl, Nat.zero_lt_succ _⟩, rfl, .pushU32 value⟩

/-- The push of a number has an encoding that is read back as such a push. -/
theorem pushFloat_cases (value : Binary32) :
    ∃ opcode operands, Statement.pushFloat value = .plain opcode operands ∧
      (Statement.plain opcode operands).Emittable ∧
      (Statement.plain opcode operands).caseCount = 0 ∧
      ReadsAs (.pushFloat value) opcode operands.stored := by
  unfold Statement.pushFloat
  split
  · rename_i opcode found
    have layout := layout_literalPushes opcode (List.mem_of_find?_eq_some found)
    have isConstant : opcode.floatConstant? = some value := by
      simpa using List.find?_some found
    exact ⟨opcode, .none, rfl, ⟨layout.symm, Nat.zero_lt_succ _⟩, rfl,
      .pushFloatLiteral value opcode isConstant⟩
  · exact ⟨_, _, rfl, ⟨rfl, Nat.zero_lt_succ _⟩, rfl, .pushF32 value⟩

/-- An emission has as many cases as its statement. -/
theorem caseCount_statement (emission : Emission) :
    emission.statement.caseCount = emission.caseCount := by
  cases emission with
  | pushInt value =>
      obtain ⟨opcode, operands, isPlain, -, noCases, -⟩ := pushInt_cases value
      rw [statement, isPlain, noCases]
      rfl
  | pushFloat value =>
      obtain ⟨opcode, operands, isPlain, -, noCases, -⟩ := pushFloat_cases value
      rw [statement, isPlain, noCases]
      rfl
  | _ => rfl

theorem nameLength_statement_lt (emission : Emission) : emission.statement.nameLength < 256 := by
  cases emission with
  | enter parameters frameSize name => exact Operands.length_nameFieldOf name
  | pushInt value =>
      obtain ⟨opcode, operands, isPlain, emittable, -, -⟩ := pushInt_cases value
      rw [statement, isPlain]
      exact emittable.nameFits
  | pushFloat value =>
      obtain ⟨opcode, operands, isPlain, emittable, -, -⟩ := pushFloat_cases value
      rw [statement, isPlain]
      exact emittable.nameFits
  | _ => exact Nat.zero_lt_succ _

theorem emittable_statement
    {emission : Emission}
    (ownLayout : emission.OwnLayout) :
    emission.statement.Emittable := by
  refine ⟨?_, emission.nameLength_statement_lt⟩
  cases emission with
  | pushInt value =>
      obtain ⟨opcode, operands, isPlain, emittable, -, -⟩ := pushInt_cases value
      rw [statement, isPlain]
      exact emittable.layout
  | pushFloat value =>
      obtain ⟨opcode, operands, isPlain, emittable, -, -⟩ := pushFloat_cases value
      rw [statement, isPlain]
      exact emittable.layout
  | jump opcode label => exact ownLayout
  | call function => trivial
  | switch cases => trivial
  | enter parameters frameSize name => rfl
  | leave parameters returns => rfl
  | native parameters returns index => rfl
  | switchOffsets cases => rfl
  | _ => exact ownLayout.symm

/-- The packed counts of a native call are six bits above two bits. -/
theorem toNat_packCounts (parameters returns : UInt8) :
    (Operands.packCounts parameters returns).toNat =
      4 * (parameters.toNat % 2 ^ 6) + returns.toNat % 2 ^ 2 := by
  have lowParameters : (parameters &&& 0x3F).toNat = parameters.toNat % 2 ^ 6 :=
    Nat.and_two_pow_sub_one_eq_mod _ 6
  have lowReturns : (returns &&& 3).toNat = returns.toNat % 2 ^ 2 :=
    Nat.and_two_pow_sub_one_eq_mod _ 2
  have shifted : (parameters.toNat % 2 ^ 6) <<< 2 < 2 ^ 8 := by
    rw [Nat.shiftLeft_eq]
    omega
  rw [Operands.packCounts, UInt8.toNat_or, UInt8.toNat_shiftLeft, lowParameters, lowReturns]
  change (parameters.toNat % 2 ^ 6) <<< 2 % 2 ^ 8 ||| returns.toNat % 2 ^ 2 = _
  rw [Nat.mod_eq_of_lt shifted, ← Nat.shiftLeft_add_eq_or_of_lt (by omega), Nat.shiftLeft_eq]
  omega

theorem nativeParameters_packCounts (parameters returns : UInt8) :
    (Operands.nativeParameters (Operands.packCounts parameters returns)).toNat =
      parameters.toNat % 2 ^ 6 := by
  rw [Operands.nativeParameters, UInt8.toNat_shiftRight, toNat_packCounts]
  change (_ >>> 2 : Nat) = _
  rw [Nat.shiftRight_eq_div_pow]
  omega

theorem nativeReturns_packCounts (parameters returns : UInt8) :
    (Operands.nativeReturns (Operands.packCounts parameters returns)).toNat =
      returns.toNat % 2 ^ 2 := by
  rw [Operands.nativeReturns, UInt8.toNat_and, toNat_packCounts]
  exact (Nat.and_two_pow_sub_one_eq_mod _ 2).trans (by omega)

/-- The instruction of an emission has the operands that were emitted. -/
theorem readsAs_blank (emission : Emission) (address : Nat) :
    emission.ReadsAs (emission.statement.blank address).opcode
      (emission.statement.blank address).operands := by
  cases emission with
  | bare opcode => exact .bare opcode
  | u8 opcode value => exact .u8 opcode value
  | u8u8 opcode first second => exact .u8u8 opcode first second
  | u8u8u8 opcode first second third => exact .u8u8u8 opcode first second third
  | s16 opcode value => exact .s16 opcode value
  | u16 opcode value => exact .u16 opcode value
  | u24 opcode value =>
      refine .u24 opcode value _ ?_
      rw [UInt32.toNat_ofNat']
      omega
  | u32 opcode value => exact .u32 opcode value
  | f32 opcode value => exact .f32 opcode value
  | rel16 opcode offset => exact .rel16 opcode offset
  | jump opcode label => exact .jump opcode label
  | call function => exact .call function
  | enter parameters frameSize name =>
      refine .enter parameters frameSize name _ ?_
      rw [Operands.enterName?_nameFieldOf]
      cases name with
      | none => exact .none
      | some name => exact .some (Utf8.longestPrefix_truncate 254 name)
  | leave parameters returns => exact .leave parameters returns
  | native parameters returns index =>
      exact .native parameters returns _ index (nativeParameters_packCounts parameters returns)
        (nativeReturns_packCounts parameters returns)
  | switch cases =>
      simp only [statement, Statement.blank, Statement.resolved, Statement.resolvedCases_zero]
      exact .switch cases
  | switchOffsets cases => exact .switchOffsets cases
  | pushInt value =>
      obtain ⟨opcode, operands, isPlain, -, -, readsAs⟩ := pushInt_cases value
      rwa [statement, isPlain]
  | pushFloat value =>
      obtain ⟨opcode, operands, isPlain, -, -, readsAs⟩ := pushFloat_cases value
      rwa [statement, isPlain]

end Emission

/-! ## Collections -/

namespace Collected

/-- Whether an emission succeeds, which depends on its number of cases only. -/
def accepts (emission : Emission) : Bool :=
  emission.caseCount ≤ 255

/-- An emission with too many cases fails and leaves the collection as it is. -/
theorem emit_of_not_accepts
    {emission : Emission}
    (refused : accepts emission = false)
    (collected : Collected) :
    emit emission collected = .error (.tooManySwitchCases emission.caseCount) collected := by
  have tooMany : maxSwitchCases < emission.statement.caseCount := by
    rw [emission.caseCount_statement]
    simpa [accepts, maxSwitchCases] using refused
  rw [emit, Statement.encode, if_pos tooMany, emission.caseCount_statement]

/-- Any other emission adds the fragment of its statement. -/
theorem emit_of_accepts
    {emission : Emission}
    (accepted : accepts emission = true)
    (collected : Collected) :
    emit emission collected = .ok collected.fragments.size
      ⟨collected.fragments.push emission.statement.fragment⟩ := by
  have fewCases : emission.statement.caseCount ≤ maxSwitchCases := by
    rw [emission.caseCount_statement]
    simpa [accepts, maxSwitchCases] using accepted
  rw [emit, Statement.encode_eq_ok_iff.mpr ⟨fewCases, rfl⟩]

/-- The collection after an emission, whether it succeeds or fails. -/
def after (collected : Collected) (emission : Emission) : Collected :=
  match emit emission collected with
  | .ok _ next => next
  | .error _ next => next

/-- The collection after emissions, going on after those that fail. -/
def afterAll (emissions : List Emission) : Collected :=
  emissions.foldl after {}

/-- A collection holds the fragments of the emissions that succeeded, in order. -/
theorem fragments_afterAll (emissions : List Emission) :
    (afterAll emissions).fragments.toList =
      (emissions.filter accepts).map fun emission => emission.statement.fragment := by
  have general : ∀ collected : Collected, (emissions.foldl after collected).fragments.toList =
      collected.fragments.toList ++
        (emissions.filter accepts).map fun emission => emission.statement.fragment := by
    induction emissions with
    | nil => simp
    | cons emission rest ih =>
        intro collected
        rw [List.foldl_cons, ih]
        cases isAccepted : accepts emission with
        | true => simp [after, emit_of_accepts isAccepted, isAccepted]
        | false => simp [after, emit_of_not_accepts isAccepted, isAccepted]
  exact general {}

/-- The code of a collection is that of instructions with the same bytes. -/
theorem code_eq_codeOf
    {collected : Collected} {instructions : List Instruction}
    (sameBytes : collected.fragments.toList.map Fragment.bytes =
      instructions.map Instruction.bytes) :
    collected.code = Instruction.codeOf instructions := by
  -- The fold is compared from any code on, since it carries the code of the fragments before.
  have general : ∀ (before : Bytes) (fragments : List Fragment) (instructions : List Instruction),
      fragments.map Fragment.bytes = instructions.map Instruction.bytes →
      fragments.foldl (fun code fragment => code ++ fragment.bytes) before =
        before ++ Instruction.codeOf instructions := by
    intro before fragments
    induction fragments generalizing before with
    | nil =>
        intro instructions same
        rw [List.map_nil, eq_comm, List.map_eq_nil_iff] at same
        simp [same, Instruction.codeOf]
    | cons fragment rest ih =>
        intro instructions same
        cases instructions with
        | nil => cases same
        | cons instruction others =>
            obtain ⟨here, later⟩ := List.cons.inj same
            rw [List.foldl_cons, ih _ others later, here, Instruction.codeOf,
              Array.append_assoc]
  rw [code, ← Array.foldl_toList, general #[] _ _ sameBytes, Array.empty_append]

theorem forall₂_readsAs_blanks (address : Nat) (emissions : List Emission) :
    List.Forall₂ (fun emission instruction =>
        emission.ReadsAs instruction.opcode instruction.operands)
      emissions (Statement.blanks address (emissions.map Emission.statement)) := by
  induction emissions generalizing address with
  | nil => exact .nil
  | cons emission rest ih =>
      exact .cons (emission.readsAs_blank address) (ih _)

/-- A walk over emitted code whose addresses have 32 bits finds the instructions that were emitted,
with the operands they were emitted with, and reaches the end of the code.  An emission fails
exactly if it has more than 255 cases, and then nothing is emitted. -/
theorem walk_code_afterAll
    {emissions : List Emission}
    (ownLayout : ∀ emission ∈ emissions, emission.OwnLayout)
    (small : (afterAll emissions).code.size < 2 ^ 32) :
    (∃ instructions : List Instruction,
      walk (afterAll emissions).code = ⟨instructions.toArray, none⟩ ∧
        (∀ instruction ∈ instructions, instruction.stop < 2 ^ 32) ∧
        (afterAll emissions).fragments.toList.map Fragment.bytes =
          instructions.map Instruction.bytes ∧
        List.Forall₂ (fun emission instruction =>
            emission.ReadsAs instruction.opcode instruction.operands)
          (emissions.filter fun emission => emission.caseCount ≤ 255) instructions) ∧
      ∀ (emission : Emission) (collected : Collected),
        (255 < emission.caseCount → emit emission collected =
          .error (.tooManySwitchCases emission.caseCount) collected) ∧
        (emission.caseCount ≤ 255 → ∃ fragment, emit emission collected =
          .ok collected.fragments.size ⟨collected.fragments.push fragment⟩) := by
  have sameBytes : (afterAll emissions).fragments.toList.map Fragment.bytes =
      (Statement.blanks 0 ((emissions.filter accepts).map Emission.statement)).map
        Instruction.bytes := by
    rw [fragments_afterAll, Statement.map_bytes_blanks, List.map_map, List.map_map]
    rfl
  have encodable : ∀ statement ∈ (emissions.filter accepts).map Emission.statement,
      statement.Encodable := by
    intro statement member
    obtain ⟨emission, isEmission, rfl⟩ := List.mem_map.mp member
    obtain ⟨inEmissions, isAccepted⟩ := List.mem_filter.mp isEmission
    refine ⟨Emission.emittable_statement (ownLayout emission inEmissions), ?_⟩
    rw [emission.caseCount_statement]
    simpa [accepts, maxSwitchCases] using isAccepted
  have walked : walk (afterAll emissions).code = ⟨(Statement.blanks 0
      ((emissions.filter accepts).map Emission.statement)).toArray, none⟩ := by
    rw [code_eq_codeOf sameBytes]
    exact walk_codeOf (Statement.blanks_wellFormed encodable 0)
      (Statement.consecutive_blanks 0 _)
  refine ⟨⟨_, walked, ?_, sameBytes, forall₂_readsAs_blanks 0 _⟩,
    fun emission collected => ⟨?_, ?_⟩⟩
  · intro instruction member
    have inWalk : instruction ∈ (walk (afterAll emissions).code).instructions.toList := by
      rw [walked]
      exact member
    obtain ⟨-, -, inside, -⟩ := Instruction.of_decode (Walk.decode_of_mem inWalk)
    exact Nat.lt_of_le_of_lt inside small
  · intro tooMany
    exact emit_of_not_accepts (by simpa [accepts] using tooMany) collected
  · intro few
    exact ⟨_, emit_of_accepts (by simpa [accepts] using few) collected⟩

/-- Emissions that lose something or fail: a name of 300 bytes, a switch with too many cases,
counts and an address with bits that are not stored, and a reference. -/
def lossyStream : List Emission :=
  [.enter 2 5 (some (String.ofList (List.replicate 100 '日'))),
    .switch (List.replicate 256 (7, "end")), .native 0xFF 0xFF 0x1234, .u24 .call 0xFF123456,
    .switchOffsets [(1, -1), (0xFFFFFFFF, 4)], .jump .jz "end", .pushInt (-300), .leave 2 1]

theorem walk_code_afterAll_lossyStream :
    (∀ emission ∈ lossyStream, emission.OwnLayout) ∧
      (afterAll lossyStream).code.size < 2 ^ 32 ∧
      ∃ instructions : List Instruction, instructions.length = 7 ∧
        walk (afterAll lossyStream).code = ⟨instructions.toArray, none⟩ ∧
        List.Forall₂ (fun emission instruction =>
            emission.ReadsAs instruction.opcode instruction.operands)
          (lossyStream.filter fun emission => emission.caseCount ≤ 255) instructions := by
  have ownLayout : ∀ emission ∈ lossyStream, emission.OwnLayout := by
    simp only [lossyStream, List.forall_mem_cons]
    exact ⟨trivial, trivial, trivial, rfl, trivial, rfl, trivial, trivial, List.forall_mem_nil _⟩
  have accepted : (lossyStream.filter fun emission => emission.caseCount ≤ 255).length = 7 := by
    decide +kernel
  have small : (afterAll lossyStream).code.size < 2 ^ 32 := by decide +kernel
  obtain ⟨instructions, walked, -, -, readsAs⟩ := (walk_code_afterAll ownLayout small).1
  exact ⟨ownLayout, small, instructions, readsAs.length_eq.symm.trans accepted, walked, readsAs⟩

end Collected
end ScriptBytecode
