import Mathlib.Data.List.Forall2
import ScriptBytecode.Proofs.ListedFunctions
import ScriptBytecode.Proofs.ListedInstructions
import ScriptBytecode.Proofs.PlacedFunctions

/-!
# The lines of listed functions

A function found in code is listed as lines: for every instruction the label at its address, if it
has one, and the statement that its texts are read as.  The labels of a function differ from each
other, and its statements have encodings of the sizes of the instructions.
-/

namespace ScriptBytecode

/-- A function as it is written: its lines, and the labels after the last of them. -/
structure FunctionLines where
  name : String
  lines : List Line
  trailing : List String

namespace FunctionLines

/-- All labels of a function, in order. -/
def labels (function : FunctionLines) : List String :=
  function.lines.flatMap Prod.fst ++ function.trailing

/-- The calls that place a function. -/
def calls (function : FunctionLines) : List BuildCall :=
  Builder.functionCalls function.name function.lines function.trailing

/-- A function that can be written: its statements have encodings, and its labels are names that
differ from each other. -/
structure Writable (function : FunctionLines) : Prop where
  encodable : ∀ line ∈ function.lines, line.2.Encodable
  labelsNodup : function.labels.Nodup
  labelsNotEmpty : ∀ label ∈ function.labels, label.isEmpty = false

theorem Writable.emittable
    {function : FunctionLines}
    (writable : function.Writable) :
    ∀ call ∈ function.calls, call.Emittable := by
  intro call member
  simp only [calls, Builder.functionCalls, List.mem_append, List.mem_singleton, List.mem_flatMap,
    List.mem_map, Line.calls] at member
  rcases member with ((rfl | ⟨line, inLines, ⟨label, -, rfl⟩ | rfl⟩) | ⟨label, -, rfl⟩) | rfl
  · trivial
  · trivial
  · exact (writable.encodable line inLines).emittable
  · trivial
  · trivial

end FunctionLines

namespace Listing

open Instruction (Consecutive codeOf)

/-! ## Statements -/

/-- The statements that an instruction can be listed as. -/
inductive ListedAs (named : Bool) (names : AddressTable String) : Instruction → Statement → Prop
  | plain (instruction : Instruction) :
      ListedAs named names instruction (.plain instruction.opcode instruction.operands)
  | jump
      (ip : Nat)
      (opcode : Opcode)
      (offset : Int16)
      (isNamed : named = true) :
      ListedAs named names ⟨ip, opcode, .rel16 offset⟩
        (.jump opcode (labelName (Instruction.jumpTarget ip offset)))
  | call
      (ip : Nat)
      (value : UInt32)
      (name : String)
      (found : names.get? value.toNat = some name) :
      ListedAs named names ⟨ip, .call, .u24 value⟩ (.call name)
  | switch
      (ip : Nat)
      (cases : List (UInt32 × Int16))
      (isNamed : named = true) :
      ListedAs named names ⟨ip, .switch, .switch cases⟩
        (.switch ((Instruction.switchCases ip cases).map fun (_, value, _, target) =>
          (value, labelName target)))

section ListedAs

variable {named : Bool} {names : AddressTable String} {instruction : Instruction}
  {statement : Statement}

theorem listedAs_listedStatement
    (named : Bool)
    (names : AddressTable String)
    (wellFormed : instruction.WellFormed) :
    ListedAs named names instruction (listedStatement named names instruction) := by
  obtain ⟨ip, opcode, operands⟩ := instruction
  have layout := wellFormed.layout
  cases operands with
  | rel16 offset =>
      cases named with
      | true => exact .jump ip opcode offset rfl
      | false => exact .plain _
  | u24 value =>
      by_cases isCall : opcode = .call
      · subst isCall
        cases found : names.get? value.toNat with
        | some name =>
            simp only [listedStatement, if_true, found]
            exact .call ip value name found
        | none =>
            simp only [listedStatement, if_true, found]
            exact .plain _
      · simp only [listedStatement, isCall, if_false]
        exact .plain _
  | switch cases =>
      obtain rfl := Opcode.eq_of_layout_switch layout.symm
      cases named with
      | true => exact .switch ip cases rfl
      | false => exact .plain _
  | _ => exact .plain _

theorem ListedAs.opcode_eq (listed : ListedAs named names instruction statement) :
    statement.opcode = instruction.opcode := by
  cases listed <;> rfl

theorem ListedAs.size_eq (listed : ListedAs named names instruction statement) :
    statement.fragment.bytes.size = instruction.size := by
  cases listed with
  | plain => rfl
  | jump ip opcode offset isNamed => rfl
  | call ip value name found => rfl
  | switch ip cases isNamed =>
      simp only [Statement.fragment, Instruction.size, Instruction.bytes, Operands.toBytes,
        List.size_toArray, List.length_cons, Instruction.length_flatMap_caseBytes, List.length_map,
        Instruction.switchCases, List.length_mapIdx]

theorem ListedAs.encodable
    (listed : ListedAs named names instruction statement)
    (wellFormed : instruction.WellFormed) :
    statement.Encodable := by
  obtain ⟨layout, fits⟩ := wellFormed
  have noName : 0 < 256 := by decide
  cases listed with
  | plain =>
      obtain ⟨ip, opcode, operands⟩ := instruction
      cases operands with
      | enter parameters frameSize nameField => exact ⟨⟨layout, fits⟩, Nat.zero_le _⟩
      | switch cases => exact ⟨⟨layout, noName⟩, Nat.lt_succ_iff.mp fits⟩
      | _ => exact ⟨⟨layout, noName⟩, Nat.zero_le _⟩
  | jump ip opcode offset isNamed => exact ⟨⟨layout.symm, noName⟩, Nat.zero_le _⟩
  | call ip value name found => exact ⟨⟨trivial, noName⟩, Nat.zero_le _⟩
  | switch ip cases isNamed =>
      refine ⟨⟨trivial, noName⟩, ?_⟩
      simp only [Operands.Fits] at fits
      simp only [Statement.caseCount, List.length_map, Instruction.switchCases, List.length_mapIdx]
      exact Nat.lt_succ_iff.mp fits

end ListedAs

/-! ## Labels -/

/-- The label of an address, if it has one. -/
def labelsAt (labels : AddressSet) (address : Nat) : List String :=
  if labels.contains address then [labelName address] else []

theorem labelItem_eq (labels : AddressSet) (address : Nat) :
    Body.labelItem labels address = (labelsAt labels address).map .label := by
  unfold Body.labelItem labelsAt
  split <;> rfl

theorem flatMap_labelsAt (labels : AddressSet) (addresses : List Nat) :
    addresses.flatMap (labelsAt labels) = (addresses.filter labels.contains).map labelName := by
  induction addresses with
  | nil => rfl
  | cons address rest ih =>
      rw [List.flatMap_cons, List.filter_cons, ih]
      unfold labelsAt
      split <;> rfl

theorem labelName_isEmpty (address : Nat) : (labelName address).isEmpty = false := by
  rw [labelName_eq, Bool.eq_false_iff, ne_eq, String.isEmpty_iff, ← String.toList_eq_nil_iff,
    String.toList_ofList]
  exact List.cons_ne_nil _ _

/-- Consecutive instructions and their end have different addresses. -/
theorem addresses_nodup
    {start : Nat} {instructions : List Instruction}
    (consecutive : Consecutive start instructions) :
    (instructions.map Instruction.ip ++ [start + (codeOf instructions).size]).Nodup ∧
      ∀ address ∈ instructions.map Instruction.ip ++ [start + (codeOf instructions).size],
        start ≤ address := by
  induction instructions generalizing start with
  | nil => simp [codeOf]
  | cons instruction rest ih =>
      obtain ⟨rfl, later⟩ := consecutive
      have positive := instruction.size_pos
      obtain ⟨nodup, notBefore⟩ := ih later
      have sameEnd : instruction.stop + (codeOf rest).size =
          instruction.ip + (codeOf (instruction :: rest)).size := by
        simp only [codeOf, Array.size_append, Instruction.stop, Instruction.size]
        omega
      rw [sameEnd] at nodup notBefore
      rw [List.map_cons, List.cons_append, List.nodup_cons, List.forall_mem_cons]
      unfold Instruction.stop at notBefore
      refine ⟨⟨?_, nodup⟩, Nat.le_refl _, ?_⟩
      · intro repeated
        have late := notBefore _ repeated
        omega
      · intro address member
        have late := notBefore _ member
        omega

namespace Body

/-- Whether all targets of an instruction have labels. -/
def isNamed (body : Body) (codeLength : Nat) (instruction : Instruction) : Bool :=
  instruction.targets.all (body.places codeLength).contains

/-- The labels of a function in code of a given length. -/
def labelSet (body : Body) (codeLength : Nat) : AddressSet :=
  body.labels (body.places codeLength)

/-- The line of an instruction. -/
def line (codeLength : Nat) (names : AddressTable String) (body : Body)
    (instruction : Instruction) : Line :=
  (labelsAt (body.labelSet codeLength) instruction.ip,
    listedStatement (body.isNamed codeLength instruction) names instruction)

/-- A target that is listed with a label has one, at an instruction of the function or at its
end. -/
theorem labelled_of_isNamed
    {body : Body} {codeLength : Nat} {instruction : Instruction}
    (member : instruction ∈ body.instructions)
    (isNamed : body.isNamed codeLength instruction = true)
    {target : Nat}
    (isTarget : target ∈ instruction.targets) :
    (body.labelSet codeLength).contains target = true ∧
      (target ∈ body.instructions.map Instruction.ip ∨
        target = body.stop ∧ body.stop = codeLength) := by
  have inPlaces := List.all_eq_true.mp isNamed target isTarget
  rw [places, AddressSet.contains_ofList] at inPlaces
  obtain ⟨isPlace, inRange⟩ := inPlaces
  constructor
  · rw [labelSet, labels, AddressSet.contains_ofList, List.mem_flatMap]
    exact ⟨⟨instruction, List.mem_filter.mpr ⟨member, isNamed⟩, isTarget⟩, inRange⟩
  · split at isPlace
    · rename_i isLast
      rw [List.mem_append, List.mem_singleton] at isPlace
      exact isPlace.imp_right fun atEnd => ⟨atEnd.trans isLast.symm, isLast⟩
    · exact .inl isPlace

end Body

/-- The lines of a function that was found in code. -/
def NamedBody.lines (codeLength : Nat) (names : AddressTable String) (function : NamedBody) :
    FunctionLines where
  name := function.name
  lines := function.body.instructions.map (function.body.line codeLength names)
  trailing := labelsAt (function.body.labelSet codeLength) function.body.stop

theorem NamedBody.labels_lines
    (codeLength : Nat)
    (names : AddressTable String)
    (function : NamedBody) :
    (function.lines codeLength names).labels =
      (function.body.instructions.map Instruction.ip ++ [function.body.stop]).flatMap
        (labelsAt (function.body.labelSet codeLength)) := by
  simp only [FunctionLines.labels, NamedBody.lines, List.flatMap_append, List.flatMap_map,
    List.flatMap_singleton, Body.line]

/-- The lines of a function that was found in code can be written. -/
theorem NamedBody.writable_lines
    {codeLength : Nat} {names : AddressTable String} {function : NamedBody}
    (consecutive : Consecutive function.body.start function.body.instructions)
    (wellFormed : ∀ instruction ∈ function.body.instructions, instruction.WellFormed) :
    (function.lines codeLength names).Writable where
  encodable := by
    intro line member
    obtain ⟨instruction, inBody, rfl⟩ := List.mem_map.mp member
    exact (listedAs_listedStatement _ _ (wellFormed _ inBody)).encodable (wellFormed _ inBody)
  labelsNodup := by
    have nodup := (addresses_nodup consecutive).1
    rw [← Body.stop_eq consecutive] at nodup
    rw [NamedBody.labels_lines, flatMap_labelsAt]
    exact (nodup.filter _).map fun left right => labelName_injective
  labelsNotEmpty := by
    intro label member
    rw [NamedBody.labels_lines, flatMap_labelsAt] at member
    obtain ⟨address, -, rfl⟩ := List.mem_map.mp member
    exact labelName_isEmpty address

/-! ## Items -/

/-- Items that list a line: its labels, and an instruction that is read as an order for its
statement. -/
def ListsLine (natives : Array UInt64) (items : List Item) (line : Line) : Prop :=
  ∃ address mnemonic texts order,
    items = line.1.map .label ++ [.instruction address mnemonic texts] ∧
      readInstruction mnemonic texts = .ok order ∧ order.Means natives line.2

/-- A listed function with the items of some lines, and labels after them. -/
structure Function.Lists (natives : Array UInt64) (function : Function)
    (lines : FunctionLines) : Prop where
  name : function.name = lines.name
  items : ∃ listed, List.Forall₂ (ListsLine natives) listed lines.lines ∧
    function.items = listed.flatten ++ lines.trailing.map .label

/-- A list is mapped to related answers if every element is. -/
theorem exists_mapM_forall₂
    {α β γ ε : Type} {answer? : α → Except ε β} {related : β → γ → Prop} {value : α → γ}
    {elements : List α}
    (answers : ∀ element ∈ elements,
      ∃ answer, answer? element = .ok answer ∧ related answer (value element)) :
    ∃ found, elements.mapM answer? = .ok found ∧
      List.Forall₂ related found (elements.map value) := by
  induction elements with
  | nil => exact ⟨[], rfl, .nil⟩
  | cons element rest ih =>
      obtain ⟨here, later⟩ := List.forall_mem_cons.mp answers
      obtain ⟨answer, isAnswer, isRelated⟩ := here
      obtain ⟨found, isFound, areRelated⟩ := ih later
      refine ⟨answer :: found, ?_, .cons isRelated areRelated⟩
      rw [List.mapM_cons, isAnswer, isFound]
      rfl

/-- The answers for a list are answers for its elements. -/
theorem forall₂_of_mapM_eq_ok
    {α β ε : Type} {answer? : α → Except ε β} {elements : List α} {answers : List β}
    (succeeded : elements.mapM answer? = .ok answers) :
    List.Forall₂ (fun element answer => answer? element = .ok answer) elements answers := by
  induction elements generalizing answers with
  | nil =>
      cases succeeded
      exact .nil
  | cons element rest ih =>
      rw [List.mapM_cons] at succeeded
      obtain ⟨answer, isAnswer, later⟩ := exists_of_bind_eq_ok succeeded
      obtain ⟨others, areOthers, isAll⟩ := exists_of_bind_eq_ok later
      cases isAll
      exact .cons isAnswer (ih areOthers)

section Items

variable {natives : Array UInt64}

theorem Body.exists_items
    (codeLength : Nat)
    {names : AddressTable String}
    (notIntegers : ∀ address name, names.get? address = some name → Text.integer? name = none)
    {body : Body}
    (listable : ∀ instruction ∈ body.instructions, instruction.Listable natives)
    (readsNumber : ∀ instruction ∈ body.instructions, ∀ value,
      instruction.operands = .f32 value → readFloat value.text = .ok value) :
    ∃ listed,
      List.Forall₂ (ListsLine natives) listed
        (body.instructions.map (body.line codeLength names)) ∧
      body.items codeLength names natives =
        .ok (listed.flatten ++ (labelsAt (body.labelSet codeLength) body.stop).map .label) := by
  have lists : ∀ instruction ∈ body.instructions, ∃ items,
      (do
        let item ← listInstruction (body.isNamed codeLength instruction) names natives instruction
        return labelItem (body.labelSet codeLength) instruction.ip ++ [item] :
        Except Error (List Item)) = .ok items ∧
      ListsLine natives items (body.line codeLength names instruction) := by
    intro instruction member
    have hasCases : body.isNamed codeLength instruction = false →
        instruction.operands ≠ .switch [] := by
      intro notNamed noCases
      have noTargets : instruction.targets = [] := by
        rw [Instruction.targets, noCases]
        rfl
      rw [isNamed, noTargets, List.all_nil] at notNamed
      cases notNamed
    obtain ⟨texts, order, isTexts, isRead, means⟩ := readsBack_of_listable
      (listable instruction member) (readsNumber instruction member)
      (fun _ name _ _ => notIntegers _ name) hasCases
    refine ⟨_, ?_, some instruction.ip, instruction.opcode.mnemonic, texts, order, rfl, isRead,
      means⟩
    simp only [listInstruction, isTexts, Except.map, bind, Except.bind, pure, Except.pure,
      labelItem_eq, Body.line]
  obtain ⟨listed, isListed, listsLines⟩ := exists_mapM_forall₂ lists
  refine ⟨listed, listsLines, ?_⟩
  rw [← labelItem_eq]
  exact congrArg
    (fun answer => answer >>= fun listed =>
      pure (listed.flatten ++ labelItem (body.labelSet codeLength) body.stop)) isListed

/-- The lines of all functions that are found in code. -/
def linesOf (codeLength : Nat) (instructions : Array Instruction) : List FunctionLines :=
  let named := nameBodies (Body.divide instructions)
  named.toList.map (NamedBody.lines codeLength (functionNames codeLength named))

/-- Listed code is read as the lines of its functions. -/
theorem exists_functionsOf
    {codeLength : Nat} {instructions : Array Instruction}
    (isNames : ∀ address name,
      (functionNames codeLength (nameBodies (Body.divide instructions))).get? address = some name →
        Text.integer? name = none)
    (listable : ∀ instruction ∈ instructions.toList, instruction.Listable natives)
    (readsNumber : ∀ instruction ∈ instructions.toList, ∀ value,
      instruction.operands = .f32 value → readFloat value.text = .ok value) :
    ∃ functions,
      functionsOf codeLength natives instructions = .ok functions ∧
      List.Forall₂ (Function.Lists natives) functions (linesOf codeLength instructions) := by
  unfold functionsOf linesOf
  apply exists_mapM_forall₂
  intro function member
  have inBodies := List.mem_map_of_mem (f := NamedBody.body) member
  rw [map_body_nameBodies] at inBodies
  have inCode : ∀ instruction ∈ function.body.instructions, instruction ∈ instructions.toList := by
    intro instruction inBody
    rw [← Body.flatMap_divide, List.mem_flatMap]
    exact ⟨function.body, inBodies, inBody⟩
  obtain ⟨listed, listsLines, isItems⟩ := Body.exists_items codeLength isNames
    (fun instruction inBody => listable instruction (inCode instruction inBody))
    (fun instruction inBody => readsNumber instruction (inCode instruction inBody))
  refine ⟨⟨function.name, function.body.start, _⟩, ?_, rfl, listed, listsLines, rfl⟩
  simp only [isItems]
  rfl

end Items

end Listing
end ScriptBytecode
