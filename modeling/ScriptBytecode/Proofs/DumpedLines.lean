import Mathlib.Algebra.Order.BigOperators.Group.List
import ScriptBytecode.Dump
import ScriptBytecode.Proofs.LiftedGroups
import ScriptBytecode.Proofs.ListedInstructions
import ScriptBytecode.Proofs.NumberText

/-!
# The lines of a dump

A dump that shows the bytes of instructions knows the operations only, yet it has a comment in front
of the operations of each instruction and adds no other.  The text of an operation is one line,
unless it shows a name: a name is printed as it is, so its line breaks end lines of the dump, and
what follows one of them can itself look like a comment.
-/

namespace ScriptBytecode

/-! ## Lines of a text -/

namespace Text

/-- Whether a text has no line break. -/
def Unbroken (text : String) : Prop :=
  '\n' ∉ text.toList

instance (text : String) : Decidable (Unbroken text) :=
  inferInstanceAs (Decidable ('\n' ∉ text.toList))

variable {text front back : String}

@[simp]
theorem unbroken_append : Unbroken (front ++ back) ↔ Unbroken front ∧ Unbroken back := by
  simp [Unbroken]

theorem unbroken_of_notBlank
    (notBlank : ∀ char ∈ text.toList, isBlank char = false) :
    Unbroken text := by
  intro member
  exact absurd (notBlank '\n' member) (by decide)

@[simp]
theorem unbroken_hex (width number : Nat) : Unbroken (hex width number) :=
  unbroken_of_notBlank (digits_hex width number).notBlank

@[simp]
theorem unbroken_address (number : Nat) : Unbroken (address number) :=
  unbroken_hex 6 number

@[simp]
theorem unbroken_toString_text : Unbroken (toString text) ↔ Unbroken text :=
  Iff.rfl

@[simp]
theorem unbroken_natural (number : Nat) : Unbroken number.repr := by
  rw [Nat.repr_eq_ofList_toDigits]
  apply unbroken_of_notBlank
  rw [String.toList_ofList]
  exact (digits_toDigits number).notBlank

@[simp]
theorem unbroken_byte (byte : UInt8) : Unbroken (toString byte) :=
  unbroken_natural byte.toNat

@[simp]
theorem unbroken_integer (value : Int) : Unbroken value.repr := by
  rw [Int.repr_eq_if]
  split
  · exact unbroken_natural _
  · exact unbroken_append.mpr ⟨by decide, unbroken_natural _⟩

theorem unbroken_intercalate
    {separator : String}
    (unbroken : Unbroken separator)
    {texts : List String}
    (all : ∀ text ∈ texts, Unbroken text) :
    Unbroken (String.intercalate separator texts) := by
  induction texts with
  | nil => exact List.not_mem_nil
  | cons text rest ih =>
      obtain ⟨here, later⟩ := List.forall_mem_cons.mp all
      cases rest with
      | nil => simpa using here
      | cons next rest =>
          rw [String.intercalate_cons_cons, unbroken_append, unbroken_append]
          exact ⟨⟨here, unbroken⟩, ih later⟩

theorem splitAll_of_unbroken (unbroken : Unbroken text) : splitAll '\n' text = [text] := by
  rw [splitAll, List.splitOn_eq_singleton unbroken]
  simp

/-- A text is divided at a line break. -/
theorem splitAll_break (left right : String) :
    splitAll '\n' (left ++ "\n" ++ right) = splitAll '\n' left ++ splitAll '\n' right := by
  have isBreak : ('\n' == '\n') = true := rfl
  have divided := List.splitOnP_append_cons (p := (· == '\n')) left.toList right.toList isBreak
  have joined : (left ++ "\n" ++ right).toList = left.toList ++ '\n' :: right.toList := by simp
  rw [splitAll, joined, List.splitOn, divided, List.map_append]
  rfl

/-- Text without line breaks in front of another text belongs to its first line. -/
theorem splitAll_append_left (unbroken : Unbroken front) (text : String) :
    ∃ first later, splitAll '\n' text = first :: later ∧
      splitAll '\n' (front ++ text) = (front ++ first) :: later := by
  obtain ⟨first, later, isSplit⟩ :=
    List.exists_cons_of_ne_nil (List.splitOn_ne_nil '\n' text.toList)
  have parts : ∀ chars : List Char, '\n' ∉ chars →
      (chars ++ text.toList).splitOn '\n' = (chars ++ first) :: later := by
    intro chars notIn
    induction chars with
    | nil => exact isSplit
    | cons char rest ih =>
        rw [List.mem_cons, not_or] at notIn
        rw [List.cons_append, List.splitOn, List.splitOnP_cons_eq_if_modifyHead,
          if_neg (by simpa using Ne.symm notIn.1)]
        exact congrArg (List.modifyHead (List.cons char)) (ih notIn.2)
  refine ⟨String.ofList first, later.map String.ofList, ?_, ?_⟩
  · rw [splitAll, isSplit, List.map_cons]
  · rw [splitAll, String.toList_append, parts _ unbroken]
    simp

theorem tail_splitAll (unbroken : Unbroken front) (text : String) :
    (splitAll '\n' (front ++ text)).tail = (splitAll '\n' text).tail := by
  obtain ⟨first, later, isSplit, isLonger⟩ := splitAll_append_left unbroken text
  rw [isSplit, isLonger, List.tail_cons, List.tail_cons]

/-- Text without line breaks behind another text belongs to its last line. -/
theorem splitAll_append_right (unbroken : Unbroken back) (text : String) :
    ∃ earlier last, splitAll '\n' text = earlier ++ [last] ∧
      splitAll '\n' (text ++ back) = earlier ++ [last ++ back] := by
  have parts : ∀ chars : List Char, ∃ earlier last, chars.splitOn '\n' = earlier ++ [last] ∧
      (chars ++ back.toList).splitOn '\n' = earlier ++ [last ++ back.toList] := by
    intro chars
    induction chars with
    | nil => exact ⟨[], [], rfl, List.splitOn_eq_singleton unbroken⟩
    | cons char rest ih =>
        obtain ⟨earlier, last, isSplit, isLonger⟩ := ih
        rw [List.splitOn] at isSplit isLonger
        rw [List.cons_append, List.splitOn, List.splitOn, List.splitOnP_cons_eq_if_modifyHead,
          List.splitOnP_cons_eq_if_modifyHead, isSplit, isLonger]
        split
        · exact ⟨[] :: earlier, last, rfl, rfl⟩
        · cases earlier with
          | nil => exact ⟨[], char :: last, rfl, rfl⟩
          | cons first earlier => exact ⟨(char :: first) :: earlier, last, rfl, rfl⟩
  obtain ⟨earlier, last, isSplit, isLonger⟩ := parts text.toList
  refine ⟨earlier.map String.ofList, String.ofList last, ?_, ?_⟩
  · rw [splitAll, isSplit, List.map_append, List.map_singleton]
  · rw [splitAll, String.toList_append, isLonger]
    simp

/-- The lines of a text in which a line break stands behind every line. -/
def lines (text : String) : List String :=
  (splitAll '\n' text).dropLast

end Text

/-! ## Lines of operations -/

namespace Operation

/-- The name that an operation shows. -/
def name? : Operation → Option String
  | .enter _ _ name => name
  | _ => none

end Operation

namespace Binary32

theorem unbroken_text (number : Binary32) : Text.Unbroken number.text := by
  cases isNaN : number.isNaN with
  | true =>
    simp only [text, NumberFormat.write, isNaN, if_true]
    decide
  | false => exact Text.unbroken_of_notBlank (spells_text isNaN).1

end Binary32

namespace Operation

variable {operation : Operation}

theorem unbroken_enter (parameters : UInt8) (frameSize : Int) :
    Text.Unbroken s!"Enter {parameters}, {frameSize}" := by
  have mnemonic : Text.Unbroken "Enter " := by decide
  have comma : Text.Unbroken ", " := by decide
  simp [mnemonic, comma]

/-- Only names can bring line breaks into the text of an operation. -/
theorem unbroken_text (unnamed : operation.name? = none) :
    Text.Unbroken operation.text := by
  have shows : ∀ {word shown : String}, Text.Unbroken word → Text.Unbroken shown →
      Text.Unbroken (word ++ shown) := fun word shown => Text.unbroken_append.mpr ⟨word, shown⟩
  cases operation with
  | pushInt value => exact shows (by decide) (Text.unbroken_integer value)
  | pushFloat value => exact shows (by decide) value.unbroken_text
  | localRef index | staticRef index | globalRef index | arrayItemRef index =>
      exact shows (by decide) (Text.unbroken_natural index)
  | textLabelAssignString size | textLabelAssignInt size | textLabelAppendString size
  | textLabelAppendInt size => exact shows (by decide) (Text.unbroken_byte size)
  | jump target | jumpIfZero target | call target =>
      exact shows (by decide) (Text.unbroken_address target)
  | nativeCall parameters returns hash =>
      refine shows (shows (shows (shows (shows (by decide) ?_) (by decide)) ?_) (by decide)) ?_
      · exact Text.unbroken_byte parameters
      · exact Text.unbroken_byte returns
      · exact Text.unbroken_hex 16 hash.toNat
  | enter parameters frameSize name =>
      cases unnamed
      exact unbroken_enter parameters frameSize
  | leave parameters returns =>
      refine shows (shows (shows (by decide) ?_) (by decide)) ?_
      · exact Text.unbroken_byte parameters
      · exact Text.unbroken_byte returns
  | switch cases =>
      refine shows (by decide) (Text.unbroken_intercalate (by decide) ?_)
      intro shown member
      obtain ⟨⟨value, target⟩, -, rfl⟩ := List.mem_map.mp member
      exact shows (shows (Text.unbroken_integer value) (by decide)) (Text.unbroken_address target)
  | _ => decide

/-- The text of an operation that shows a name. -/
theorem text_of_named
    {name : String}
    (named : operation.name? = some name) :
    ∃ (parameters : UInt8) (frameSize : Int),
      operation.text = s!"Enter {parameters}, {frameSize}" ++ ", \"" ++ (name ++ "\"") := by
  cases operation with
  | enter parameters frameSize shown =>
      cases named
      exact ⟨parameters, frameSize, String.append_assoc⟩
  | _ => cases named

end Operation

namespace LiftedOperation

theorem text_eq (operation : LiftedOperation) :
    operation.text = Text.address operation.address ++ (": " ++ operation.operation.text) :=
  String.append_assoc

/-- The lines that an operation is printed as. -/
def lines (operation : LiftedOperation) : List String :=
  Text.splitAll '\n' operation.text

theorem lines_of_unnamed
    {operation : LiftedOperation}
    (unnamed : operation.operation.name? = none) :
    operation.lines = [operation.text] := by
  apply Text.splitAll_of_unbroken
  refine Text.unbroken_append.mpr ⟨Text.unbroken_append.mpr ⟨?_, by decide⟩, ?_⟩
  · exact Text.unbroken_address operation.address
  · exact Operation.unbroken_text unnamed

end LiftedOperation

/-! ## Comments -/

namespace Dump

open Instruction

/-- The comment of an instruction: its mnemonic and its bytes. -/
def comment (opcode : Opcode) (bytes : Bytes) : String :=
  "        ; " ++ opcode.mnemonic ++ " [" ++
    String.intercalate " " (bytes.toList.map fun byte => Text.hex 2 byte.toNat) ++ "]"

/-- Whether a line is marked as a comment. -/
def isComment (line : String) : Bool :=
  "        ; ".toList.isPrefixOf line.toList

/-- What is printed for an instruction: its comment, then its operations. -/
def commented (code : Bytes) (natives : Array UInt64) (instruction : Instruction) : List String :=
  comment instruction.opcode (code.extract instruction.ip instruction.stop) ::
    (instruction.group natives).map LiftedOperation.text

theorem isComment_comment (opcode : Opcode) (bytes : Bytes) :
    isComment (comment opcode bytes) = true := by
  rw [isComment, List.isPrefixOf_iff_prefix, comment]
  simp only [String.toList_append, List.append_assoc]
  exact List.prefix_append _ _

/-- A line that begins with an address is no comment. -/
theorem isComment_address (address : Nat) (rest : String) :
    isComment (Text.address address ++ rest) = false := by
  have notEmpty : (Text.address address).toList ≠ [] := by
    rw [Text.address, Text.hex, String.toList_ofList]
    simp
  obtain ⟨first, others, isHex⟩ := List.exists_cons_of_ne_nil notEmpty
  have notBlank : Text.isBlank first = false := by
    apply (Text.digits_hex 6 address).notBlank
    change first ∈ (Text.address address).toList
    rw [isHex]
    exact List.mem_cons_self
  have notSpace : ' ' ≠ first := by
    rintro rfl
    revert notBlank
    decide
  rw [isComment, String.toList_append, isHex]
  simp [List.isPrefixOf, notSpace]

theorem isComment_text (operation : LiftedOperation) : isComment operation.text = false := by
  rw [operation.text_eq]
  exact isComment_address _ _

/-- A line is marked at its front, so a quotation mark behind it changes nothing. -/
theorem isComment_quoted (line : String) : isComment (line ++ "\"") = isComment line := by
  have unquoted : '"' ∉ "        ; ".toList := by decide
  have behind : (line ++ "\"").toList = line.toList ++ ['"'] := String.toList_append
  rw [Bool.eq_iff_iff, isComment, isComment, List.isPrefixOf_iff_prefix,
    List.isPrefixOf_iff_prefix, behind, List.prefix_concat_iff]
  apply or_iff_right
  intro isMark
  rw [isMark] at unquoted
  exact unquoted (by simp)

theorem unbroken_comment (opcode : Opcode) (bytes : Bytes) :
    Text.Unbroken (comment opcode bytes) := by
  obtain ⟨chars, isMnemonic, spelling⟩ := opcode.mnemonic_spelling
  have mnemonic : Text.Unbroken opcode.mnemonic := by
    rw [isMnemonic]
    apply Text.unbroken_of_notBlank
    rw [String.toList_ofList]
    exact fun char member => (spelling char member).1
  have shown : Text.Unbroken
      (String.intercalate " " (bytes.toList.map fun byte => Text.hex 2 byte.toNat)) := by
    apply Text.unbroken_intercalate (by decide)
    intro text member
    obtain ⟨byte, -, rfl⟩ := List.mem_map.mp member
    exact Text.unbroken_hex 2 byte.toNat
  simp only [comment, Text.unbroken_append]
  exact ⟨⟨⟨⟨by decide, mnemonic⟩, by decide⟩, shown⟩, by decide⟩

/-- The first line of an operation begins with its address. -/
theorem forall_isComment_lines_iff_text (operation : LiftedOperation) :
    (∀ line ∈ operation.lines, isComment line = false) ↔
      ∀ line ∈ (Text.splitAll '\n' operation.operation.text).tail, isComment line = false := by
  obtain ⟨first, later, isSplit, isLonger⟩ := Text.splitAll_append_left
    (Text.unbroken_address operation.address) (": " ++ operation.operation.text)
  have isLater := Text.tail_splitAll (by decide : Text.Unbroken ": ") operation.operation.text
  rw [isSplit] at isLater
  rw [LiftedOperation.lines, operation.text_eq, isLonger, List.forall_mem_cons, ← isLater,
    List.tail_cons]
  exact and_iff_right (isComment_address operation.address first)

theorem forall_isComment_tail_quoted (name : String) :
    (∀ line ∈ (Text.splitAll '\n' (name ++ "\"")).tail, isComment line = false) ↔
      ∀ line ∈ (Text.splitAll '\n' name).tail, isComment line = false := by
  obtain ⟨earlier, last, isSplit, isLonger⟩ :=
    Text.splitAll_append_right (by decide : Text.Unbroken "\"") name
  rw [isSplit, isLonger]
  cases earlier with
  | nil => rfl
  | cons first earlier =>
      rw [List.cons_append, List.cons_append, List.tail_cons, List.tail_cons,
        List.forall_mem_append, List.forall_mem_append, List.forall_mem_singleton,
        List.forall_mem_singleton, isComment_quoted]

/-- Comments among the lines of an operation are lines of its name behind the first. -/
theorem forall_isComment_lines_iff (operation : LiftedOperation) :
    (∀ line ∈ operation.lines, isComment line = false) ↔
      ∀ name, operation.operation.name? = some name →
        ∀ line ∈ (Text.splitAll '\n' name).tail, isComment line = false := by
  rw [forall_isComment_lines_iff_text]
  cases named : operation.operation.name? with
  | none => simp [Text.splitAll_of_unbroken (Operation.unbroken_text named)]
  | some name =>
      obtain ⟨parameters, frameSize, isText⟩ := Operation.text_of_named named
      have unbroken : Text.Unbroken (s!"Enter {parameters}, {frameSize}" ++ ", \"") :=
        Text.unbroken_append.mpr ⟨Operation.unbroken_enter parameters frameSize, by decide⟩
      rw [isText, Text.tail_splitAll unbroken, forall_isComment_tail_quoted]
      simp

/-! ## Printed code -/

variable {address : Nat} {script : Script} {instructions : List Instruction}
    {lifted : Array LiftedOperation} {previous : Option Nat} {code : Bytes}
    {natives : Array UInt64}

theorem instructionLine_of_decode
    {instruction : Instruction}
    (decoded : decode code instruction.ip = .ok instruction) :
    instructionLine code instruction.ip =
      [comment instruction.opcode (code.extract instruction.ip instruction.stop)] := by
  obtain ⟨-, -, -, isPart⟩ := of_decode decoded
  rw [isPart, instructionLine, decoded]
  rfl

/-- Operations at the address of the one before are added without a comment. -/
theorem foldl_addOperation_same
    {operations : List LiftedOperation}
    (alike : ∀ operation ∈ operations, operation.address = address)
    (entries : Array String) :
    operations.foldl (addOperation true code) (entries, some address) =
      (entries ++ (operations.map LiftedOperation.text).toArray, some address) := by
  induction operations generalizing entries with
  | nil => simp
  | cons operation rest ih =>
      obtain ⟨rfl, later⟩ := List.forall_mem_cons.mp alike
      rw [List.foldl_cons]
      simp only [addOperation, bne_self_eq_false, Bool.and_false, Bool.false_eq_true, if_false]
      rw [ih later]
      simp

/-- The first operation of a group is added behind a comment. -/
theorem foldl_addOperation_group
    {group : List LiftedOperation}
    (notEmpty : group ≠ [])
    (alike : ∀ operation ∈ group, operation.address = address)
    (another : previous ≠ some address)
    (entries : Array String) :
    group.foldl (addOperation true code) (entries, previous) =
      (entries ++ (instructionLine code address ++ group.map LiftedOperation.text).toArray,
        some address) := by
  obtain ⟨operation, rest, rfl⟩ := List.exists_cons_of_ne_nil notEmpty
  obtain ⟨rfl, later⟩ := List.forall_mem_cons.mp alike
  have changed : (previous != some operation.address) = true := bne_iff_ne.mpr another
  rw [List.foldl_cons]
  simp only [addOperation, changed, Bool.and_true, if_true]
  rw [foldl_addOperation_same later]
  apply Prod.ext
  · apply Array.toList_inj.mp
    simp
  · rfl

/-- The entries of consecutive instructions. -/
theorem foldl_addOperation_groups
    {start : Nat}
    (consecutive : Consecutive start instructions)
    (decodes : ∀ instruction ∈ instructions, decode code instruction.ip = .ok instruction)
    (notEmpty : ∀ instruction ∈ instructions, instruction.group natives ≠ [])
    (before : ∀ address, previous = some address → address < start)
    (entries : Array String) :
    ∃ last, (instructions.map (group natives)).flatten.foldl (addOperation true code)
        (entries, previous) =
          (entries ++ (instructions.flatMap (commented code natives)).toArray, last) ∧
      ∀ address, last = some address → address < start + (codeOf instructions).size := by
  induction instructions generalizing start previous entries with
  | nil => exact ⟨previous, by simp, before⟩
  | cons instruction rest ih =>
      obtain ⟨rfl, later⟩ := consecutive
      obtain ⟨decodesHere, decodesLater⟩ := List.forall_mem_cons.mp decodes
      obtain ⟨groupHere, groupsLater⟩ := List.forall_mem_cons.mp notEmpty
      have positive := instruction.size_pos
      have another : previous ≠ some instruction.ip :=
        fun same => Nat.lt_irrefl _ (before _ same)
      have isLast : ∀ address, some instruction.ip = some address → address < instruction.stop := by
        rintro _ ⟨⟩
        unfold stop
        omega
      have here :
          (instruction.group natives).foldl (addOperation true code) (entries, previous) = _ :=
        foldl_addOperation_group groupHere (fun _ => address_of_mem_group) another entries
      obtain ⟨last, folded, below⟩ := ih later decodesLater groupsLater isLast
        (entries ++ (instructionLine code instruction.ip ++
          (instruction.group natives).map LiftedOperation.text).toArray)
      refine ⟨last, ?_, ?_⟩
      · rw [List.map_cons, List.flatten_cons, List.foldl_append, here, folded,
          instructionLine_of_decode decodesHere]
        apply Prod.ext
        · apply Array.toList_inj.mp
          simp [commented]
        · rfl
      · rw [codeOf, Array.size_append, ← Nat.add_assoc]
        exact below

/-- The code of a dump with the bytes of instructions: what is printed for every instruction, and
the end. -/
theorem codeEntries_of_lift
    (notEmpty : script.code ≠ #[])
    (isLifted : lift script.code script.natives = .ok lifted) :
    (codeEntries ⟨script, lifted⟩ true).toList =
      (walk script.code).instructions.toList.flatMap (commented script.code script.natives) ++
        [LiftedOperation.text ⟨script.code.size, .endOfScript⟩] := by
  obtain ⟨noFailure, operations, areOperations, isList⟩ := liftedOf?_of_lift notEmpty isLifted
  obtain ⟨rfl, groups⟩ := group_of_liftedOf? areOperations
  obtain ⟨consecutive, -, -, ends⟩ := Walk.divides script.code
  rw [noFailure] at ends
  have nothingBefore : ∀ address, none = some address → address < 0 := by simp
  obtain ⟨last, folded, below⟩ := foldl_addOperation_groups consecutive
    (fun _ => Walk.decode_of_mem) groups nothingBefore #[]
  rw [Nat.zero_add, ends] at below
  have atEnd : instructionLine script.code script.code.size = [] := by
    simp [instructionLine, decode]
  rw [codeEntries, ← Array.foldl_toList, isList, List.foldl_append, folded]
  simp [addOperation, atEnd]

/-- Printed entries are divided where their own line breaks are, and behind each of them. -/
theorem lines_print (entries : Array String) :
    Text.lines (print entries) = entries.toList.flatMap (Text.splitAll '\n') := by
  have continued : ∀ (entries : List String) (text : String),
      entries.foldl (fun text entry => text ++ entry ++ "\n") text =
        text ++ entries.foldl (fun text entry => text ++ entry ++ "\n") "" := by
    intro entries
    induction entries with
    | nil => simp
    | cons entry rest ih =>
        intro text
        rw [List.foldl_cons, List.foldl_cons, ih, ih ("" ++ entry ++ "\n")]
        simp [String.append_assoc]
  have parts : Text.splitAll '\n' (print entries) =
      entries.toList.flatMap (Text.splitAll '\n') ++ [""] := by
    rw [print, ← Array.foldl_toList]
    induction entries.toList with
    | nil => rfl
    | cons entry rest ih =>
        rw [List.foldl_cons, continued, String.empty_append, Text.splitAll_break, ih,
          List.flatMap_cons, List.append_assoc]
  rw [Text.lines, parts, List.dropLast_concat]

/-- The lines that are printed for an instruction: its comment, then those of its operations. -/
def printed (code : Bytes) (natives : Array UInt64) (instruction : Instruction) : List String :=
  comment instruction.opcode (code.extract instruction.ip instruction.stop) ::
    (instruction.group natives).flatMap LiftedOperation.lines

theorem flatMap_splitAll_commented
    (code : Bytes)
    (natives : Array UInt64)
    (instruction : Instruction) :
    (commented code natives instruction).flatMap (Text.splitAll '\n') =
      printed code natives instruction := by
  rw [commented, List.flatMap_cons, Text.splitAll_of_unbroken (unbroken_comment _ _),
    List.flatMap_map]
  rfl

/-- The lines of code in a dump with the bytes of instructions. -/
theorem lines_codeText_of_lift
    (notEmpty : script.code ≠ #[])
    (isLifted : lift script.code script.natives = .ok lifted) :
    Text.lines (codeText ⟨script, lifted⟩ true) =
      (walk script.code).instructions.toList.flatMap (printed script.code script.natives) ++
        [LiftedOperation.text ⟨script.code.size, .endOfScript⟩] := by
  have entries := codeEntries_of_lift notEmpty isLifted
  have ending : LiftedOperation.lines ⟨script.code.size, .endOfScript⟩ = _ :=
    LiftedOperation.lines_of_unnamed rfl
  rw [codeText, lines_print, entries, List.flatMap_append, List.flatMap_assoc,
    List.flatMap_singleton]
  simp only [flatMap_splitAll_commented]
  exact congrArg _ ending

theorem exists_text_eq (dump : Dump) (raw : Bool) :
    ∃ front, dump.text raw = front ++ "code:\n" ++ dump.codeText raw := by
  refine ⟨print (summaryLines dump.script ++ stringLines dump.script ++
    nativeLines dump.script).toArray ++ "\n", ?_⟩
  simp [text, print, String.append_assoc]

/-- A list of lists that begin with some elements has no other elements. -/
theorem flatMap_cons_eq_map_iff
    {α β : Type} {elements : List α} {first : α → β} {others : α → List β} :
    (elements.flatMap fun element => first element :: others element) = elements.map first ↔
      ∀ element ∈ elements, others element = [] := by
  induction elements with
  | nil => simp
  | cons element rest ih =>
      rw [List.flatMap_cons, List.map_cons, List.cons_append, List.cons.injEq,
        List.forall_mem_cons, ← ih]
      constructor
      · rintro ⟨-, same⟩
        have atLeast : rest.length ≤
            (rest.flatMap fun element => first element :: others element).length := by
          rw [List.length_flatMap]
          refine Nat.le_trans ?_ (List.length_le_sum_of_one_le _ ?_)
          · rw [List.length_map]
          · simp
        have lengths := congrArg List.length same
        rw [List.length_append, List.length_map] at lengths
        have isEmpty : others element = [] := List.length_eq_zero_iff.mp (by omega)
        rw [isEmpty] at same
        exact ⟨isEmpty, same⟩
      · rintro ⟨isEmpty, same⟩
        rw [isEmpty, same]
        exact ⟨rfl, rfl⟩

/-- The lines of instructions have one comment for each, exactly if no operation has one. -/
theorem filter_flatMap_printed_eq_iff :
    (instructions.flatMap (printed code natives)).filter isComment =
        instructions.map (fun instruction =>
          comment instruction.opcode (code.extract instruction.ip instruction.stop)) ↔
      ∀ instruction ∈ instructions, ∀ operation ∈ instruction.group natives,
        ∀ line ∈ operation.lines, isComment line = false := by
  have isFiltered : ∀ instruction, (printed code natives instruction).filter isComment =
      comment instruction.opcode (code.extract instruction.ip instruction.stop) ::
        ((instruction.group natives).flatMap LiftedOperation.lines).filter isComment :=
    fun instruction => List.filter_cons_of_pos (isComment_comment _ _)
  rw [List.filter_flatMap]
  simp only [isFiltered]
  rw [flatMap_cons_eq_map_iff]
  simp only [List.filter_eq_nil_iff, List.forall_mem_flatMap, Bool.not_eq_true]

end Dump

open Instruction

/-- The operations that code is lifted to stand in groups, one for each instruction of the walk and
one for the end.  A dump shows a comment in front of the lines of each group of an instruction, and
there is no other comment exactly if no line of a name, apart from its first, is marked as one. -/
theorem lift_groups_by_instruction
    {code : Bytes} {natives : Array UInt64} {lifted : Array LiftedOperation}
    (notEmpty : code ≠ #[])
    (isLifted : lift code natives = .ok lifted) :
    lifted.toList.splitBy (fun first second => first.address == second.address) =
        (walk code).instructions.toList.map (group natives) ++ [[⟨code.size, .endOfScript⟩]] ∧
      (∀ instruction ∈ (walk code).instructions.toList, instruction.group natives ≠ [] ∧
        (∀ operation ∈ instruction.group natives, operation.address = instruction.ip) ∧
        instruction.operations natives =
          .ok ((instruction.group natives).map LiftedOperation.operation)) ∧
      ∀ script : Script, script.code = code → script.natives = natives →
        Dump.ofScript script = .ok ⟨script, lifted⟩ ∧
          (∃ front, Dump.text ⟨script, lifted⟩ true =
            front ++ "code:\n" ++ Dump.codeText ⟨script, lifted⟩ true) ∧
          Text.lines (Dump.codeText ⟨script, lifted⟩ true) =
            (walk code).instructions.toList.flatMap (Dump.printed code natives) ++
              [LiftedOperation.text ⟨code.size, .endOfScript⟩] ∧
          ((Text.lines (Dump.codeText ⟨script, lifted⟩ true)).filter Dump.isComment =
              (walk code).instructions.toList.map (fun instruction =>
                Dump.comment instruction.opcode (code.extract instruction.ip instruction.stop)) ↔
            ∀ operation ∈ lifted.toList, ∀ name, operation.operation.name? = some name →
              ∀ line ∈ (Text.splitAll '\n' name).tail, Dump.isComment line = false) := by
  obtain ⟨-, operations, areOperations, isList⟩ := liftedOf?_of_lift notEmpty isLifted
  obtain ⟨rfl, groups⟩ := group_of_liftedOf? areOperations
  refine ⟨splitBy_address_of_lift notEmpty isLifted, ?_, ?_⟩
  · intro instruction member
    have hasGroup := groups instruction member
    exact ⟨hasGroup, fun _ => address_of_mem_group, operations_of_group_ne_nil hasGroup⟩
  · rintro script rfl rfl
    have lines := Dump.lines_codeText_of_lift notEmpty isLifted
    refine ⟨by rw [Dump.ofScript, isLifted]; rfl, Dump.exists_text_eq _ true, lines, ?_⟩
    rw [lines, List.filter_append, List.filter_singleton, Dump.isComment_text, cond_false,
      List.append_nil, Dump.filter_flatMap_printed_eq_iff, isList, List.forall_mem_append,
      List.forall_mem_flatten]
    simp [Dump.forall_isComment_lines_iff, Operation.name?]

/-- A function with a name of two lines, and an instruction with two operations. -/
def twoLineName : Script :=
  { codePages := ⟨#[#[0x22, 0x00, 0x02, 0x00, 0x04, 0x61, 0x0A, 0x62, 0x00, 0x5C],
      #[0x04, 0x50, 0x00, 0x00]]⟩ }

theorem lift_groups_by_instruction_twoLineName :
    twoLineName.code ≠ #[] ∧ ∃ lifted, lift twoLineName.code #[] = .ok lifted ∧
      lifted.toList.splitBy (fun first second => first.address == second.address) =
        [[⟨0, .enter 0 0 (some "a\nb")⟩], [⟨9, .pushInt 4⟩, ⟨9, .iadd⟩], [⟨11, .leave 0 0⟩],
          [⟨14, .endOfScript⟩]] ∧
      Text.lines (Dump.codeText ⟨twoLineName, lifted⟩ true) =
        ["        ; ENTER [22 00 02 00 04 61 0A 62 00]", "000000: Enter 0, 0, \"a", "b\"",
          "        ; IADD_U8 [5C 04]", "000009: PushInt 4", "000009: IAdd",
          "        ; LEAVE [50 00 00]", "00000B: Leave 0, 0", "00000E: EndOfScript"] ∧
      (Text.lines (Dump.codeText ⟨twoLineName, lifted⟩ true)).filter Dump.isComment =
        ["        ; ENTER [22 00 02 00 04 61 0A 62 00]", "        ; IADD_U8 [5C 04]",
          "        ; LEAVE [50 00 00]"] := by
  have notEmpty : twoLineName.code ≠ #[] := by decide +kernel
  have isLifted : lift twoLineName.code #[] = .ok #[⟨0, .enter 0 0 (some "a\nb")⟩,
      ⟨9, .pushInt 4⟩, ⟨9, .iadd⟩, ⟨11, .leave 0 0⟩, ⟨14, .endOfScript⟩] := by
    decide +kernel
  obtain ⟨groups, -, dumps⟩ := lift_groups_by_instruction notEmpty isLifted
  obtain ⟨-, -, lines, comments⟩ := dumps twoLineName rfl rfl
  refine ⟨notEmpty, _, isLifted, groups.trans ?_, lines.trans ?_, (comments.mpr ?_).trans ?_⟩
  · decide +kernel
  · decide +kernel
  · decide +kernel
  · decide +kernel

/-- A function whose name has the comment of an instruction that is not there as a line. -/
def commentedName : Script :=
  { codePages := ⟨#[#[0x22, 0x00, 0x02, 0x00, 0x15, 0x0A, 0x20, 0x20, 0x20, 0x20, 0x20, 0x20, 0x20,
      0x20, 0x3B, 0x20, 0x4E, 0x4F, 0x50, 0x20, 0x5B, 0x31, 0x33, 0x5D, 0x0A, 0x00]]⟩ }

/-- The dump of a single instruction can have two comments. -/
theorem comments_commentedName :
    (walk commentedName.code).instructions.toList.map Instruction.opcode = [.enter] ∧
      ∃ lifted, lift commentedName.code commentedName.natives = .ok lifted ∧
        (Text.lines (Dump.codeText ⟨commentedName, lifted⟩ true)).filter Dump.isComment =
          [Dump.comment .enter commentedName.code, Dump.comment .nop #[0x13]] := by
  refine ⟨by decide +kernel, #[⟨0, .enter 0 0 (some "\n        ; NOP [13]\n")⟩,
    ⟨26, .endOfScript⟩], ?_, ?_⟩
  · decide +kernel
  · decide +kernel

end ScriptBytecode
