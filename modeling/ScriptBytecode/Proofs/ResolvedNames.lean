import ScriptBytecode.Proofs.AssembledItems
import ScriptBytecode.Proofs.ExactLinking

/-!
# Names resolve to what they name

A target that is no number is a name.  In the code of a listing that is assembled without fusing,
every jump to the name of a label of its function leads to the address of this label, and every call
of the name of a function to the address of this function.  The cases of a switch are names as soon
as one of their targets is no number, and blanks around these targets do not count.  A target that
is a number is this number, also where a label or a function has it for a name.
-/

namespace ScriptBytecode
namespace Listing

open Builder Instruction

variable {mnemonic : String} {opcode : Opcode}

variable {text : String} {texts : List String} {statement : Statement}

/-! ## Names in a listing -/

/-- The text of the target of a switch case. -/
def targetText? (text : String) : Option String :=
  (Text.splitFirst? ':' text).map fun parts => Text.trim parts.2

/-- An instruction is listed in a function at an index. -/
def Lists (functions : List Function) (function index : Nat) (opcode : Opcode)
    (texts : List String) : Prop :=
  ∃ remark mnemonic,
    item? functions function index = some (.instruction remark mnemonic texts) ∧
      Opcode.read mnemonic = .ok opcode

/-- An instruction is decoded at the address of an item. -/
def DecodesAt (functions : List Function) (code : Bytes) (function index : Nat) (opcode : Opcode)
    (operands : Operands) : Prop :=
  decode code (address functions function index) =
    .ok ⟨address functions function index, opcode, operands⟩

/-- Code in which the names of a listing lead to what they name.  Addresses are 32-bit words. -/
structure TargetsResolve (functions : List Function) (code : Bytes) : Prop where
  /-- Every instruction stands at its address. -/
  instructions : ∀ function index remark mnemonic texts,
    item? functions function index = some (.instruction remark mnemonic texts) →
      ∃ opcode operands, Opcode.read mnemonic = .ok opcode ∧
        DecodesAt functions code function index opcode operands
  /-- A jump to a name leads to the label with this name. -/
  jumps : ∀ function index opcode label place,
    Lists functions function index opcode [label] → opcode.layout = .rel16 →
    Text.integer? label = none → item? functions function place = some (.label label) →
      ∃ offset, DecodesAt functions code function index opcode (.rel16 offset) ∧
        jumpTarget (address functions function index) offset =
          wrapAddress (address functions function place)
  /-- A jump by a number has this offset. -/
  jumpNumbers : ∀ function index opcode text value,
    Lists functions function index opcode [text] → opcode.layout = .rel16 →
    Text.integer? text = some value →
      ∃ offset, DecodesAt functions code function index opcode (.rel16 offset) ∧
        offset.toInt = value
  /-- The cases of a switch with a name among its targets lead to the labels with their names. -/
  switches : ∀ function index texts, Lists functions function index .switch texts →
    (∃ text ∈ texts, ∃ target, targetText? text = some target ∧ Text.integer? target = none) →
      ∃ cases, DecodesAt functions code function index .switch (.switch cases) ∧
        ∀ number text label place, texts[number]? = some text → targetText? text = some label →
          item? functions function place = some (.label label) →
            ∃ value offset, cases[number]? = some (value, offset) ∧
              caseTarget (address functions function index) number offset =
                wrapAddress (address functions function place)
  /-- The cases of a switch with numbers for all of its targets have these offsets. -/
  switchNumbers : ∀ function index texts, Lists functions function index .switch texts →
    (∀ text ∈ texts, ∀ target, targetText? text = some target →
      Text.integer? target ≠ none) →
      ∃ cases, DecodesAt functions code function index .switch (.switch cases) ∧
        List.Forall₂ (fun text case => ∃ target, targetText? text = some target ∧
          Text.integer? target = some case.2.toInt) texts cases
  /-- A call of a name leads to the function with this name. -/
  calls : ∀ function index callee place,
    Lists functions function index .call [callee.name] → Text.integer? callee.name = none →
    functions[place]? = some callee →
      ∃ operand, DecodesAt functions code function index .call (.u24 operand) ∧
        operand.toNat = address functions place 0
  /-- A call of a number that is an address leads to this address. -/
  callNumbers : ∀ function index text value,
    Lists functions function index .call [text] → Text.integer? text = some value →
    value < 0x1000000 →
      ∃ operand, DecodesAt functions code function index .call (.u24 operand) ∧
        operand.toNat = value

/-! ## Reading targets -/

theorem integer?_of_readInteger
    {range : IntegerRange} {value : Int}
    (isRead : readInteger range text = .ok value) :
    Text.integer? text = some value ∧ range.least ≤ value ∧ value ≤ range.greatest := by
  unfold readInteger at isRead
  split at isRead
  · rename_i found isInteger
    split_ifs at isRead with holds
    cases isRead
    exact ⟨isInteger, of_decide_eq_true holds⟩
  · cases isRead

theorem integer?_of_readInt16
    {offset : Int16}
    (isRead : readInt16 text = .ok offset) :
    Text.integer? text = some offset.toInt := by
  obtain ⟨value, isValue, rfl⟩ := map_eq_ok_iff.mp isRead
  obtain ⟨isInteger, notBelow, notAbove⟩ := integer?_of_readInteger isValue
  simp only [IntegerRange.least, IntegerRange.greatest] at notBelow notAbove
  rw [isInteger, Int16.toInt_ofInt_of_le (by omega) (by omega)]

theorem integer?_of_readUInt24
    {operand : UInt32}
    (isRead : readUInt24 text = .ok operand) :
    Text.integer? text = some (operand.toNat : Int) := by
  obtain ⟨value, isValue, rfl⟩ := map_eq_ok_iff.mp isRead
  obtain ⟨isInteger, notBelow, notAbove⟩ := integer?_of_readInteger isValue
  simp only [IntegerRange.least, IntegerRange.greatest] at notBelow notAbove
  rw [isInteger, UInt32.toNat_ofNat', Option.some.injEq]
  omega

theorem exists_getElem?_of_forall₂
    {α β : Type} {related : α → β → Prop} {elements : List α} {others : List β}
    (areRelated : List.Forall₂ related elements others)
    {index : Nat} {element : α}
    (found : elements[index]? = some element) :
    ∃ other, others[index]? = some other ∧ related element other := by
  induction areRelated generalizing index with
  | nil => cases found
  | cons isRelated _ ih =>
      cases index with
      | zero =>
          cases found
          exact ⟨_, rfl, isRelated⟩
      | succ index => exact ih found

/-- What the operands of a switch can be read as. -/
inductive SwitchReadAs (texts : List String) : Statement → Prop
  | offsets
      (cases : List (UInt32 × Int16))
      (areCases : List.Forall₂ (fun text case => ∃ target, targetText? text = some target ∧
        Text.integer? target = some case.2.toInt) texts cases) :
      SwitchReadAs texts (.switchOffsets cases)
  | labels
      (cases : List (UInt32 × String))
      (areCases : List.Forall₂ (fun text case => targetText? text = some case.2) texts cases)
      (named : cases = [] ∨ ∃ case ∈ cases, Text.integer? case.2 = none) :
      SwitchReadAs texts (.switch cases)

theorem targetText?_of_readCase
    {case : UInt32 × String}
    (isRead : readCase text = .ok case) :
    targetText? text = some case.2 := by
  unfold readCase at isRead
  split at isRead
  · rename_i value target divided
    obtain ⟨word, -, rfl⟩ := map_eq_ok_iff.mp isRead
    rw [targetText?, divided]
    rfl
  · cases isRead

theorem forall₂_integer?_of_mapM
    {cases : List (UInt32 × String)} {offsets : List (UInt32 × Int16)}
    (areTargets : List.Forall₂ (fun text case => targetText? text = some case.2) texts cases)
    (areOffsets : List.Forall₂
      (fun case offset => (readInt16 case.2).map (Prod.mk case.1) = .ok offset) cases offsets) :
    List.Forall₂ (fun text case => ∃ target, targetText? text = some target ∧
      Text.integer? target = some case.2.toInt) texts offsets := by
  induction areTargets generalizing offsets with
  | nil =>
      cases areOffsets
      exact .nil
  | @cons text case texts cases isTarget _ ih =>
      cases areOffsets with
      | cons isOffset later =>
          obtain ⟨offset, isRead, rfl⟩ := map_eq_ok_iff.mp isOffset
          exact .cons ⟨case.2, isTarget, integer?_of_readInt16 isRead⟩ (ih later)

theorem switchReadAs_of_readSwitch
    (isRead : readSwitch texts = .ok statement) :
    SwitchReadAs texts statement := by
  obtain ⟨cases, areCases, later⟩ := exists_of_bind_eq_ok isRead
  have areTargets := (forall₂_of_mapM_eq_ok areCases).imp fun text case => targetText?_of_readCase
  split at later
  · rename_i numbers
    obtain ⟨offsets, areOffsets, isStatement⟩ := exists_of_bind_eq_ok later
    cases isStatement
    exact .offsets offsets
      (forall₂_integer?_of_mapM areTargets (forall₂_of_mapM_eq_ok areOffsets))
  · rename_i numbers
    cases later
    refine .labels cases areTargets ?_
    rw [Bool.and_eq_true, List.all_eq_true, not_and] at numbers
    by_contra! named
    obtain ⟨notEmpty, integers⟩ := named
    exact numbers (by simpa using notEmpty) fun case member =>
      Option.isSome_iff_ne_none.mpr (integers case member)

theorem readOperands_of_readInstruction
    {order : Order}
    (isOpcode : Opcode.read mnemonic = .ok opcode)
    (isRead : readInstruction mnemonic texts = .ok order) :
    readOperands opcode texts = .ok order := by
  rw [readInstruction, isOpcode] at isRead
  simp only [Bind.bind, Except.bind] at isRead
  split at isRead
  · rename_i found reads
    cases isRead
    exact reads
  · cases isRead

section Reading

variable {opcode : Opcode} {text : String} {order : Order} {value : Int}

theorem readOperands_label
    (layout : opcode.layout = .rel16)
    (notInteger : Text.integer? text = none) :
    readOperands opcode [text] = .ok (.statement (.jump opcode text)) := by
  unfold readOperands
  simp only [layout, notInteger, if_true]

theorem exists_offset_of_readOperands
    (layout : opcode.layout = .rel16)
    (isInteger : Text.integer? text = some value)
    (isRead : readOperands opcode [text] = .ok order) :
    ∃ offset : Int16, offset.toInt = value ∧
      order = .statement (.plain opcode (.rel16 offset)) := by
  unfold readOperands at isRead
  simp only [layout, isInteger, reduceCtorEq, if_false] at isRead
  obtain ⟨offset, isOffset, isOrder⟩ := exists_of_bind_eq_ok isRead
  cases isOrder
  rw [integer?_of_readInt16 isOffset, Option.some.injEq] at isInteger
  exact ⟨offset, isInteger, rfl⟩

theorem readOperands_callee (notInteger : Text.integer? text = none) :
    readOperands .call [text] = .ok (.statement (.call text)) := by
  unfold readOperands Opcode.layout
  simp only [notInteger, and_self, if_true]

theorem exists_operand_of_readOperands
    (isInteger : Text.integer? text = some value)
    (isRead : readOperands .call [text] = .ok order) :
    ∃ operand : UInt32, (operand.toNat : Int) = value ∧
      order = .statement (.plain .call (.u24 operand)) := by
  unfold readOperands Opcode.layout at isRead
  simp only [isInteger, reduceCtorEq, and_false, if_false] at isRead
  obtain ⟨operand, isOperand, isOrder⟩ := exists_of_bind_eq_ok isRead
  cases isOrder
  rw [integer?_of_readUInt24 isOperand, Option.some.injEq] at isInteger
  exact ⟨operand, isInteger, rfl⟩

theorem switchReadAs_of_readOperands
    {texts : List String}
    (isRead : readOperands .switch texts = .ok order) :
    ∃ statement, order = .statement statement ∧ SwitchReadAs texts statement := by
  unfold readOperands Opcode.layout at isRead
  obtain ⟨statement, isSwitch, isOrder⟩ := exists_of_bind_eq_ok isRead
  cases isOrder
  exact ⟨statement, rfl, switchReadAs_of_readSwitch isSwitch⟩

end Reading

/-- The opcode of what is read is the one that is listed. -/
theorem ReadAs.opcode_eq
    (readAs : ReadAs opcode texts (.statement statement)) :
    statement.opcode = opcode := by
  cases readAs with
  | plain operands layout notEnter notNative => rfl
  | enter parameters frameSize name layout => exact (Opcode.eq_of_layout_enter layout).symm
  | jump label layout isText notInteger => rfl
  | call name isCall isText notInteger => exact isCall.symm
  | switch statement layout isSwitch =>
      rw [Opcode.eq_of_layout_switch layout]
      cases switchReadAs_of_readSwitch isSwitch <;> rfl

/-- The statement of a listed instruction has its opcode and is what its operands are read as. -/
theorem Item.Calls.exists_opcode
    {remark : Option Nat}
    (calls : Item.Calls (.instruction remark mnemonic texts) (.emit statement)) :
    ∃ order, Opcode.read mnemonic = .ok statement.opcode ∧
      readOperands statement.opcode texts = .ok order ∧
      ∀ other, order = .statement other → statement = other := by
  cases calls with
  | statement _ isRead =>
      obtain ⟨opcode, isOpcode, -⟩ := exists_of_bind_eq_ok isRead
      have reads := readOperands_of_readInstruction isOpcode isRead
      rw [(readAs_of_readOperands reads).opcode_eq]
      refine ⟨_, isOpcode, reads, ?_⟩
      rintro _ ⟨⟩
      rfl
  | native _ isRead index =>
      obtain ⟨opcode, isOpcode, -⟩ := exists_of_bind_eq_ok isRead
      have reads := readOperands_of_readInstruction isOpcode isRead
      cases readAs_of_readOperands reads with
      | native parameters returns hash layout =>
          cases Opcode.eq_of_layout_native layout
          exact ⟨_, isOpcode, reads, by rintro _ ⟨⟩⟩

/-! ## Where names lead -/

section Session

variable {steps : List BuildStep} {builder : Builder} {linked : LinkedCode}
    {functions : List Function} {function : Function} {place index : Nat} {opcode : Opcode}
    {texts : List String} {remark : Option Nat} {label text mnemonic : String} {target : Nat}
    {value : Int}

variable (finished : Finished steps builder linked)

include finished

/-- A listed instruction has a placement in its function and at its address. -/
theorem exists_placement_of_item
    (session : SessionOf functions steps)
    (isItem : item? functions place index = some (.instruction remark mnemonic texts)) :
    ∃ function placement, functions[place]? = some function ∧
      placement ∈ Placement.ofSteps "" 0 steps ∧ placement.function = function.name ∧
      placement.address = address functions place index ∧
      Item.Calls (.instruction remark mnemonic texts) (.emit placement.statement) := by
  obtain ⟨function, before, call, answer, after, isFunction, divided, calls, inFunction,
    isAddress⟩ := session.exists_item finished.run isItem
  obtain ⟨statement, rfl⟩ : ∃ statement, call = .emit statement := by
    cases calls <;> exact ⟨_, rfl⟩
  obtain ⟨name, isName, placement, member, isHere, atAddress, rfl⟩ :=
    finished.exists_placement divided
  rw [isName, Option.some.injEq] at inFunction
  exact ⟨function, placement, isFunction, member, isHere.trans inFunction,
    atAddress.trans isAddress, calls⟩

/-- A label is linked as the address of its item. -/
theorem labelOf_eq_address
    (session : SessionOf functions steps)
    (isFunction : functions[place]? = some function)
    (isItem : item? functions place index = some (.label label)) :
    labelOf builder.functions function.name label = address functions place index := by
  obtain ⟨other, before, call, answer, after, isOther, rfl, calls, inFunction, isAddress⟩ :=
    session.exists_item finished.run isItem
  rw [isFunction, Option.some.injEq] at isOther
  subst isOther
  cases calls
  rw [labelOf, finished.run.finishedLabel_addLabel finished.ended inFunction]
  exact isAddress

/-- A function is linked as the address of its first item. -/
theorem startOf_eq_address
    (session : SessionOf functions steps)
    (isFunction : functions[place]? = some function) :
    startOf builder.functions function.name = address functions place 0 := by
  obtain ⟨before, length, after, rfl, isStart⟩ :=
    session.exists_beginFunction finished.run isFunction
  rw [startOf, finished.run.find?_beginFunction finished.ended]
  exact isStart

/-- A listed instruction has a placement with the statement that its operands are read as. -/
theorem exists_placement_of_lists
    (session : SessionOf functions steps)
    (lists : Lists functions place index opcode texts) :
    ∃ function placement order, functions[place]? = some function ∧
      placement ∈ Placement.ofSteps "" 0 steps ∧ placement.function = function.name ∧
      placement.address = address functions place index ∧
      readOperands opcode texts = .ok order ∧
      ∀ statement, order = .statement statement → placement.statement = statement := by
  obtain ⟨remark, mnemonic, isItem, isOpcode⟩ := lists
  obtain ⟨function, placement, isFunction, member, inFunction, atAddress, calls⟩ :=
    exists_placement_of_item finished session isItem
  obtain ⟨order, isSame, reads, asRead⟩ := calls.exists_opcode
  rw [isOpcode, Except.ok.injEq] at isSame
  rw [← isSame] at reads
  exact ⟨function, placement, order, isFunction, member, inFunction, atAddress, reads, asRead⟩

theorem decodes_of_item
    (session : SessionOf functions steps)
    (isItem : item? functions place index = some (.instruction remark mnemonic texts)) :
    ∃ opcode operands, Opcode.read mnemonic = .ok opcode ∧
      DecodesAt functions linked.pages.flatten place index opcode operands := by
  obtain ⟨function, placement, -, member, -, atAddress, calls⟩ :=
    exists_placement_of_item finished session isItem
  obtain ⟨order, isOpcode, -, -⟩ := calls.exists_opcode
  refine ⟨_, (placement.instruction builder.functions).operands, isOpcode, ?_⟩
  rw [DecodesAt, ← atAddress, finished.decode_placement member, ← opcode_instruction,
    ← placement.ip_instruction builder.functions]

theorem jump_leads
    (session : SessionOf functions steps)
    (lists : Lists functions place index opcode [label])
    (layout : opcode.layout = .rel16)
    (notInteger : Text.integer? label = none)
    (isLabel : item? functions place target = some (.label label)) :
    ∃ offset, DecodesAt functions linked.pages.flatten place index opcode (.rel16 offset) ∧
      jumpTarget (address functions place index) offset =
        wrapAddress (address functions place target) := by
  obtain ⟨function, ⟨_, size, _, statement⟩, order, isFunction, member, rfl, rfl, reads, asRead⟩ :=
    exists_placement_of_lists finished session lists
  rw [readOperands_label layout notInteger] at reads
  cases reads
  cases asRead _ rfl
  refine ⟨_, finished.decode_placement member, ?_⟩
  rw [jumpTarget_labelOperand_eq_wrap
      (finished.resolvable _ member _ (List.mem_map_of_mem List.mem_cons_self)),
    labelOf_eq_address finished session isFunction isLabel]

theorem jump_offset
    (session : SessionOf functions steps)
    (lists : Lists functions place index opcode [text])
    (layout : opcode.layout = .rel16)
    (isInteger : Text.integer? text = some value) :
    ∃ offset, DecodesAt functions linked.pages.flatten place index opcode (.rel16 offset) ∧
      offset.toInt = value := by
  obtain ⟨function, ⟨_, size, _, statement⟩, order, -, member, rfl, rfl, reads, asRead⟩ :=
    exists_placement_of_lists finished session lists
  obtain ⟨offset, isValue, rfl⟩ := exists_offset_of_readOperands layout isInteger reads
  cases asRead _ rfl
  exact ⟨offset, finished.decode_placement member, isValue⟩

theorem call_leads
    (session : SessionOf functions steps)
    {callee : Function}
    (lists : Lists functions place index .call [callee.name])
    (notInteger : Text.integer? callee.name = none)
    (isCallee : functions[target]? = some callee) :
    ∃ operand, DecodesAt functions linked.pages.flatten place index .call (.u24 operand) ∧
      operand.toNat = address functions target 0 := by
  obtain ⟨function, ⟨_, size, _, statement⟩, order, -, member, rfl, rfl, reads, asRead⟩ :=
    exists_placement_of_lists finished session lists
  rw [readOperands_callee notInteger] at reads
  cases reads
  cases asRead _ rfl
  refine ⟨_, finished.decode_placement member, ?_⟩
  rw [finished.toNat_functionOperand member rfl, startOf_eq_address finished session isCallee]

theorem call_number
    (session : SessionOf functions steps)
    (lists : Lists functions place index .call [text])
    (isInteger : Text.integer? text = some value)
    (isAddress : value < 0x1000000) :
    ∃ operand, DecodesAt functions linked.pages.flatten place index .call (.u24 operand) ∧
      operand.toNat = value := by
  obtain ⟨function, ⟨_, size, _, statement⟩, order, -, member, rfl, rfl, reads, asRead⟩ :=
    exists_placement_of_lists finished session lists
  obtain ⟨operand, isValue, rfl⟩ := exists_operand_of_readOperands isInteger reads
  cases asRead _ rfl
  refine ⟨_, finished.decode_placement member, ?_⟩
  rw [UInt32.toNat_ofNat', ← isValue]
  omega

theorem switch_leads
    (session : SessionOf functions steps)
    (lists : Lists functions place index .switch texts)
    (named : ∃ text ∈ texts, ∃ target, targetText? text = some target ∧
      Text.integer? target = none) :
    ∃ cases, DecodesAt functions linked.pages.flatten place index .switch (.switch cases) ∧
      ∀ number text label target, texts[number]? = some text → targetText? text = some label →
        item? functions place target = some (.label label) →
          ∃ value offset, cases[number]? = some (value, offset) ∧
            caseTarget (address functions place index) number offset =
              wrapAddress (address functions place target) := by
  obtain ⟨function, ⟨_, size, _, statement⟩, order, isFunction, member, rfl, rfl, reads, asRead⟩ :=
    exists_placement_of_lists finished session lists
  obtain ⟨other, rfl, readAs⟩ := switchReadAs_of_readOperands reads
  cases asRead _ rfl
  cases readAs with
  | offsets cases areCases =>
      -- Offsets are read only if all targets are numbers.
      obtain ⟨text, isText, target, isTarget, notInteger⟩ := named
      obtain ⟨number, found⟩ := List.getElem?_of_mem isText
      obtain ⟨case, -, other, isOther, isInteger⟩ := exists_getElem?_of_forall₂ areCases found
      rw [isTarget, Option.some.injEq] at isOther
      rw [← isOther, notInteger] at isInteger
      cases isInteger
  | labels cases areCases _ =>
      refine ⟨_, finished.decode_placement member, ?_⟩
      intro number text label target isText isTarget isLabel
      obtain ⟨⟨value, name⟩, isCase, isName⟩ := exists_getElem?_of_forall₂ areCases isText
      rw [isTarget, Option.some.injEq] at isName
      subst isName
      refine ⟨value, _, by rw [Statement.getElem?_resolvedCases, isCase]; rfl, ?_⟩
      rw [caseTarget_labelOperand_eq_wrap (finished.resolvable _ member _
          (List.mem_map_of_mem (Finished.caseReference_mem isCase))),
        labelOf_eq_address finished session isFunction isLabel]

theorem switch_offsets
    (session : SessionOf functions steps)
    (lists : Lists functions place index .switch texts)
    (integers : ∀ text ∈ texts, ∀ target, targetText? text = some target →
      Text.integer? target ≠ none) :
    ∃ cases, DecodesAt functions linked.pages.flatten place index .switch (.switch cases) ∧
      List.Forall₂ (fun text case => ∃ target, targetText? text = some target ∧
        Text.integer? target = some case.2.toInt) texts cases := by
  obtain ⟨function, ⟨_, size, _, statement⟩, order, -, member, rfl, rfl, reads, asRead⟩ :=
    exists_placement_of_lists finished session lists
  obtain ⟨other, rfl, readAs⟩ := switchReadAs_of_readOperands reads
  cases asRead _ rfl
  cases readAs with
  | offsets cases areCases => exact ⟨cases, finished.decode_placement member, areCases⟩
  | labels cases areCases named =>
      -- Without a case there is nothing to lead anywhere; else some target is no number.
      rcases named with rfl | ⟨case, isCase, notInteger⟩
      · cases areCases
        exact ⟨[], finished.decode_placement member, .nil⟩
      · obtain ⟨number, found⟩ := List.getElem?_of_mem isCase
        obtain ⟨text, isText, isTarget⟩ := exists_getElem?_of_forall₂ areCases.flip found
        exact absurd notInteger (integers text (List.mem_of_getElem? isText) case.2 isTarget)

end Session

/-- Names resolve: in the code of a listing that is assembled without fusing, every instruction
stands at its address, and its targets lead to the labels and functions they name, or are the
numbers they say. -/
theorem targetsResolve_of_assemble
    {listing : Listing} {script : Script}
    (assembled : listing.assemble false = .ok script) :
    TargetsResolve listing.functions script.code := by
  obtain ⟨steps, builder, linked, finished, session, isCode⟩ := exists_session_of_assemble assembled
  rw [isCode]
  constructor
  case instructions =>
      intro function index remark mnemonic texts isItem
      exact decodes_of_item finished session isItem
  case jumps =>
      intro function index opcode label place lists layout notInteger isLabel
      exact jump_leads finished session lists layout notInteger isLabel
  case jumpNumbers =>
      intro function index opcode text value lists layout isInteger
      exact jump_offset finished session lists layout isInteger
  case switches =>
      intro function index texts lists named
      exact switch_leads finished session lists named
  case switchNumbers =>
      intro function index texts lists integers
      exact switch_offsets finished session lists integers
  case calls =>
      intro function index callee place lists notInteger isCallee
      exact call_leads finished session lists notInteger isCallee
  case callNumbers =>
      intro function index text value lists isInteger isAddress
      exact call_number finished session lists isInteger isAddress

/-- A listing with unusual names: a number too great to be read as one, numbers among the names of a
switch, a colon, and a label at the end of a function. -/
def unusualNames : Listing where
  config := { name := "unusual" }
  functions :=
    [⟨"main", 0,
      [.label "9223372036854775808", .instruction none "SWITCH" ["1: 12 ", "2:a:b", "3:end"],
        .label "12", .instruction none "JZ" ["9223372036854775808"], .label "a:b",
        .instruction none "CALL" ["-"], .instruction none "J" ["end"], .label "end"]⟩,
      ⟨"-", 0, [.instruction none "ENTER" ["0", "2"], .instruction none "LEAVE" ["0", "0"]]⟩]

theorem targetsResolve_of_assemble_unusualNames :
    ∃ script, unusualNames.assemble false = .ok script ∧ script.codeLength = 38 ∧
      TargetsResolve unusualNames.functions script.code := by
  have known : (unusualNames.assemble false).toOption.map Script.codeLength = some 38 := by
    decide +kernel
  obtain ⟨script, isScript, length⟩ := Option.map_eq_some_iff.mp known
  rw [toOption_eq_some_iff] at isScript
  exact ⟨script, isScript, length, targetsResolve_of_assemble isScript⟩

/-- A listing in which a label and a function have numbers for names, and two labels differ by a
blank. -/
def numericNames : Listing where
  config := { name := "numeric" }
  functions :=
    [⟨"main", 0,
      [.label "2", .instruction none "J" ["2"], .instruction none "CALL" ["1"], .label " top",
        .instruction none "NOP" [], .label "top", .instruction none "SWITCH" ["0: top"],
        .instruction none "LEAVE" ["0", "0"]]⟩,
      ⟨"1", 0, [.instruction none "LEAVE" ["0", "0"]]⟩]

/-- A jump or a call to a number does not lead to the label or function with this name, and a
switch case does not lead to a label that begins with a blank. -/
theorem targets_miss_numericNames :
    ∃ script, numericNames.assemble false = .ok script ∧
      (item? numericNames.functions 0 1 = some (.instruction none "J" ["2"]) ∧
        item? numericNames.functions 0 0 = some (.label "2") ∧
        DecodesAt numericNames.functions script.code 0 1 .j (.rel16 2) ∧
        jumpTarget (address numericNames.functions 0 1) 2 ≠
          wrapAddress (address numericNames.functions 0 0)) ∧
      (item? numericNames.functions 0 2 = some (.instruction none "CALL" ["1"]) ∧
        numericNames.functions[1]?.map Function.name = some "1" ∧
        DecodesAt numericNames.functions script.code 0 2 .call (.u24 1) ∧
        (1 : UInt32).toNat ≠ address numericNames.functions 1 0) ∧
      item? numericNames.functions 0 6 = some (.instruction none "SWITCH" ["0: top"]) ∧
        item? numericNames.functions 0 3 = some (.label " top") ∧
        DecodesAt numericNames.functions script.code 0 6 .switch (.switch [(0, -8)]) ∧
        caseTarget (address numericNames.functions 0 6) 0 (-8) ≠
          wrapAddress (address numericNames.functions 0 3) := by
  have known : (numericNames.assemble false).toOption.map (fun script =>
      ([0, 3, 8].map fun place => (decode script.code place).toOption)) =
      some [some ⟨0, .j, .rel16 2⟩, some ⟨3, .call, .u24 1⟩,
        some ⟨8, .switch, .switch [(0, -8)]⟩] := by
    decide +kernel
  obtain ⟨script, isScript, decoded⟩ := Option.map_eq_some_iff.mp known
  rw [toOption_eq_some_iff] at isScript
  simp only [List.map_cons, List.map_nil, List.cons.injEq, toOption_eq_some_iff, and_true]
    at decoded
  obtain ⟨isJump, isCall, isSwitch⟩ := decoded
  have jumpAddress : address numericNames.functions 0 1 = 0 := by decide +kernel
  have callAddress : address numericNames.functions 0 2 = 3 := by decide +kernel
  have switchAddress : address numericNames.functions 0 6 = 8 := by decide +kernel
  simp only [DecodesAt, jumpAddress, callAddress, switchAddress]
  exact ⟨script, isScript, ⟨rfl, rfl, isJump, by decide +kernel⟩,
    ⟨rfl, rfl, isCall, by decide +kernel⟩, rfl, rfl, isSwitch, by decide +kernel⟩

end Listing
end ScriptBytecode
