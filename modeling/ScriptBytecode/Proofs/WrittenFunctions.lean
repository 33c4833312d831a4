import ScriptBytecode.Listing.Assemble
import ScriptBytecode.Proofs.ListedLines
import ScriptBytecode.Proofs.UnitNatives

/-!
# Writing listed functions

Writing listed functions to an empty code unit, after the natives that they use, makes functions
with the listed lines.  Finishing this unit places these lines.
-/

namespace ScriptBytecode

/-! ## Open functions -/

/-- An open arena that holds lines, with labels that wait for the next line. -/
structure Arena.Holds (arena : Arena) (lines : List Line) (pending : List String) : Prop where
  hasLines : FunctionCode.HasLines ⟨"", arena⟩ lines
  isPending : arena.pending = pending
  noTrailing : arena.trailing = []

namespace Arena.Holds

variable {arena : Arena} {lines : List Line} {pending : List String}

theorem empty : Arena.Holds {} [] [] :=
  ⟨.empty "", rfl, rfl⟩

theorem hasLabel_eq_false
    (holds : arena.Holds lines pending)
    {label : String}
    (fresh : label ∉ lines.flatMap Prod.fst ++ pending) :
    arena.hasLabel label = false := by
  rw [List.mem_append, not_or, List.mem_flatMap] at fresh
  obtain ⟨notPlaced, notPending⟩ := fresh
  have entries := holds.hasLines.entries_eq
  rw [Arena.hasLabel, holds.isPending, holds.noTrailing, ← Array.any_toList, entries,
    Bool.or_eq_false_iff, Bool.or_eq_false_iff]
  refine ⟨⟨by simpa using notPending, rfl⟩, ?_⟩
  rw [List.any_map, List.any_eq_false]
  intro line member
  have notHere : label ∉ line.1 := fun inLine => notPlaced ⟨line, member, inLine⟩
  simp [Line.entry, notHere]

theorem addLabel (holds : arena.Holds lines pending) (label : String) :
    (arena.addLabel label).Holds lines (pending ++ [label]) :=
  ⟨holds.hasLines.addLabel label, congrArg (· ++ [label]) holds.isPending, holds.noTrailing⟩

theorem push (holds : arena.Holds lines pending) (statement : Statement) :
    (arena.push ⟨statement.fragment.bytes, statement.fragment.references, []⟩).2.Holds
      (lines ++ [(pending, statement)]) [] := by
  obtain ⟨live, represents, isLines⟩ := holds.hasLines
  obtain ⟨handle, slots, free, isPush, -⟩ :=
    represents.push_eq ⟨statement.fragment.bytes, statement.fragment.references, []⟩
  have hasLines := holds.hasLines.push statement
  rw [holds.isPending] at hasLines
  exact ⟨hasLines, by rw [isPush], by rw [isPush]; exact holds.noTrailing⟩

end Arena.Holds

namespace CodeUnit

variable (codeUnit : CodeUnit) (name : String) (arena : Arena)

theorem label_opened
    {label : String}
    (notEmpty : label.isEmpty = false)
    (fresh : arena.hasLabel label = false) :
    CodeUnit.label label (codeUnit.opened name arena) =
      .ok () (codeUnit.opened name (arena.addLabel label)) := by
  have isOpen : (codeUnit.opened name arena).current = some ⟨name, arena⟩ := rfl
  exact label_of_open isOpen notEmpty fresh

theorem emit_opened
    {statement : Statement}
    (fewCases : statement.caseCount ≤ maxSwitchCases) :
    ∃ handle, CodeUnit.emit statement (codeUnit.opened name arena) =
      .ok handle (codeUnit.opened name
        (arena.push ⟨statement.fragment.bytes, statement.fragment.references, []⟩).2) := by
  have isOpen : (codeUnit.opened name arena).current = some ⟨name, arena⟩ := rfl
  exact emit_of_open isOpen fewCases

end CodeUnit

/-- A function with given lines, and labels after them. -/
structure FunctionCode.Follows (code : FunctionCode) (lines : FunctionLines) : Prop where
  name : code.name = lines.name
  hasLines : code.HasLines lines.lines
  trailing : code.arena.trailing = lines.trailing

/-- A function is ended with the labels that still wait after its lines. -/
theorem Arena.Holds.follows_close
    {arena : Arena} {lines : List Line} {pending : List String}
    (holds : arena.Holds lines pending)
    (name : String) :
    FunctionCode.Follows ⟨name, arena.close⟩ ⟨name, lines, pending⟩ where
  name := rfl
  hasLines := holds.hasLines.close
  trailing := by simp [Arena.close, holds.noTrailing, holds.isPending]

namespace Listing

variable {codeUnit : CodeUnit} {natives : Array UInt64} {functions : List Function}
    {allLines : List FunctionLines}

section Writing

variable {codeUnit : CodeUnit} {name : String} {arena : Arena} {lines : List Line}

/-- An order for a statement appends that statement. -/
theorem writeOrder_opened
    (name : String)
    (arena : Arena)
    (indexed : codeUnit.Indexed)
    {order : Order} {statement : Statement}
    (means : order.Means codeUnit.natives statement)
    (fewCases : statement.caseCount ≤ maxSwitchCases) :
    writeOrder order (codeUnit.opened name arena) =
      .ok () (codeUnit.opened name
        (arena.push ⟨statement.fragment.bytes, statement.fragment.references, []⟩).2) := by
  obtain ⟨handle, emitted⟩ := codeUnit.emit_opened name arena fewCases
  cases order with
  | statement other =>
      obtain rfl : other = statement := means
      simp only [writeOrder, bind, EStateM.bind, emitted]
      rfl
  | native parameters returns hash =>
      obtain ⟨index, found, rfl⟩ := means
      have openedIndexed : (codeUnit.opened name arena).Indexed :=
        ⟨indexed.fewNatives, indexed.indices⟩
      simp only [writeOrder, CodeUnit.native, bind, EStateM.bind,
        openedIndexed.nativeIndex_eq found, emitted]
      rfl

theorem writeItems_cons
    {item : Item} {next : CodeUnit}
    (wrote : writeItem item codeUnit = .ok () next)
    (function : String)
    (index : Nat)
    (rest : List Item) :
    writeItems function index (item :: rest) codeUnit =
      writeItems function (index + 1) rest next := by
  simp only [writeItems, wrote]

/-- Labels that are new and differ from each other wait for the next line. -/
theorem exists_writeItems_labels
    (codeUnit : CodeUnit)
    (name : String)
    {pending : List String}
    (holds : arena.Holds lines pending)
    {labels : List String}
    (nodup : (lines.flatMap Prod.fst ++ (pending ++ labels)).Nodup)
    (notEmpty : ∀ label ∈ labels, label.isEmpty = false) :
    ∃ next : Arena, next.Holds lines (pending ++ labels) ∧
      ∀ (function : String) (index : Nat) (rest : List Item),
        writeItems function index (labels.map .label ++ rest) (codeUnit.opened name arena) =
          writeItems function (index + labels.length) rest (codeUnit.opened name next) := by
  induction labels generalizing arena pending with
  | nil => exact ⟨arena, by rwa [List.append_nil], fun _ _ _ => rfl⟩
  | cons label labels ih =>
      obtain ⟨notEmptyHere, notEmptyLater⟩ := List.forall_mem_cons.mp notEmpty
      have regrouped : pending ++ label :: labels = pending ++ [label] ++ labels := by simp
      have fresh : label ∉ lines.flatMap Prod.fst ++ pending := by
        rw [← List.append_assoc, List.nodup_append] at nodup
        intro repeated
        exact nodup.2.2 label repeated label List.mem_cons_self rfl
      rw [regrouped] at nodup ⊢
      obtain ⟨next, nextHolds, continues⟩ :=
        ih (holds.addLabel label) nodup notEmptyLater
      refine ⟨next, nextHolds, fun function index rest => ?_⟩
      have wrote : writeItem (.label label) (codeUnit.opened name arena) = _ :=
        codeUnit.label_opened name arena notEmptyHere (holds.hasLabel_eq_false fresh)
      rw [List.map_cons, List.cons_append, writeItems_cons wrote, continues, List.length_cons,
        Nat.add_right_comm, Nat.add_assoc]

/-- The items of a line append that line. -/
theorem exists_writeItems_line
    (name : String)
    (indexed : codeUnit.Indexed)
    (holds : arena.Holds lines [])
    {items : List Item} {line : Line}
    (lists : ListsLine codeUnit.natives items line)
    (fewCases : line.2.caseCount ≤ maxSwitchCases)
    (nodup : ((lines ++ [line]).flatMap Prod.fst).Nodup)
    (notEmpty : ∀ label ∈ line.1, label.isEmpty = false) :
    ∃ next : Arena, next.Holds (lines ++ [line]) [] ∧
      ∀ (function : String) (index : Nat) (rest : List Item),
        writeItems function index (items ++ rest) (codeUnit.opened name arena) =
          writeItems function (index + items.length) rest (codeUnit.opened name next) := by
  obtain ⟨address, mnemonic, texts, order, rfl, isRead, means⟩ := lists
  rw [List.flatMap_append, List.flatMap_singleton] at nodup
  obtain ⟨labelled, labelledHolds, continues⟩ :=
    exists_writeItems_labels codeUnit name holds nodup notEmpty
  have isOrder : writeItem (.instruction address mnemonic texts) = writeOrder order := by
    unfold writeItem
    simp only [isRead]
  have wrote := writeOrder_opened name labelled indexed means fewCases
  rw [← isOrder] at wrote
  refine ⟨_, labelledHolds.push line.2, fun function index rest => ?_⟩
  rw [List.append_assoc, continues, List.singleton_append, writeItems_cons wrote,
    List.length_append, List.length_map, List.length_singleton, Nat.add_assoc]

/-- The items of lines append these lines. -/
theorem exists_writeItems_lines
    (name : String)
    (indexed : codeUnit.Indexed)
    (holds : arena.Holds lines [])
    {listed : List (List Item)} {newLines : List Line}
    (lists : List.Forall₂ (ListsLine codeUnit.natives) listed newLines)
    (fewCases : ∀ line ∈ newLines, line.2.caseCount ≤ maxSwitchCases)
    (nodup : ((lines ++ newLines).flatMap Prod.fst).Nodup)
    (notEmpty : ∀ label ∈ newLines.flatMap Prod.fst, label.isEmpty = false) :
    ∃ next : Arena, next.Holds (lines ++ newLines) [] ∧
      ∀ (function : String) (index : Nat) (rest : List Item),
        writeItems function index (listed.flatten ++ rest) (codeUnit.opened name arena) =
          writeItems function (index + listed.flatten.length) rest
            (codeUnit.opened name next) := by
  induction lists generalizing arena lines with
  | nil => exact ⟨arena, by rwa [List.append_nil], fun _ _ _ => rfl⟩
  | @cons items line listed newLines here later ih =>
      obtain ⟨fewHere, fewLater⟩ := List.forall_mem_cons.mp fewCases
      rw [List.flatMap_cons, List.forall_mem_append] at notEmpty
      have regrouped : lines ++ line :: newLines = lines ++ [line] ++ newLines := by simp
      rw [regrouped] at nodup ⊢
      have nodupHere := nodup
      rw [List.flatMap_append] at nodupHere
      obtain ⟨middle, middleHolds, first⟩ := exists_writeItems_line name indexed holds here fewHere
         (List.nodup_append.mp nodupHere).1 notEmpty.1
      obtain ⟨next, nextHolds, continues⟩ :=
        ih middleHolds fewLater nodup notEmpty.2
      refine ⟨next, nextHolds, fun function index rest => ?_⟩
      rw [List.flatten_cons, List.append_assoc, first, continues, List.length_append,
        Nat.add_assoc]

end Writing

/-! ## Functions -/

/-- Writing a listed function adds a function with the listed lines. -/
theorem exists_writeFunction
    (indexed : codeUnit.Indexed)
    (outside : codeUnit.current = none)
    {function : Function} {lines : FunctionLines}
    (lists : function.Lists codeUnit.natives lines)
    (writable : lines.Writable)
    (fresh : ∀ other ∈ codeUnit.finished, other.name ≠ lines.name) :
    ∃ code : FunctionCode, code.Follows lines ∧
      writeFunction function codeUnit =
        .ok () { codeUnit with finished := codeUnit.finished.push code } := by
  obtain ⟨sameName, listed, listsLines, isItems⟩ := lists
  have labelsNodup := writable.labelsNodup
  have labelsNotEmpty := writable.labelsNotEmpty
  rw [FunctionLines.labels, List.forall_mem_append] at labelsNotEmpty
  obtain ⟨written, writtenHolds, writesLines⟩ := exists_writeItems_lines lines.name indexed .empty
    listsLines (fun line member => (writable.encodable line member).fewCases)
    (List.nodup_append.mp labelsNodup).1 labelsNotEmpty.1
  rw [FunctionLines.labels] at labelsNodup
  obtain ⟨last, lastHolds, writesLabels⟩ :=
    exists_writeItems_labels codeUnit lines.name writtenHolds labelsNodup labelsNotEmpty.2
  have begun : CodeUnit.beginFunction function.name codeUnit =
      .ok () (codeUnit.opened lines.name {}) := by
    have unused : codeUnit.finished.any (·.name == lines.name) = false := by
      rw [Array.any_eq_false']
      intro other member
      simpa using fresh other member
    rw [sameName]
    exact CodeUnit.beginFunction_of_outside outside unused
  have wrote : writeItems function.name 0 function.items (codeUnit.opened lines.name {}) =
      .ok () (codeUnit.opened lines.name last) := by
    have labels := writesLabels function.name (0 + listed.flatten.length) []
    rw [List.append_nil] at labels
    rw [isItems, writesLines, labels]
    rfl
  have ended : CodeUnit.endFunction (codeUnit.opened lines.name last) =
      .ok () { codeUnit with finished := codeUnit.finished.push ⟨lines.name, last.close⟩ } := by
    obtain ⟨finished, current, natives, nativeIndices⟩ := codeUnit
    cases outside
    rfl
  refine ⟨⟨lines.name, last.close⟩, ⟨rfl, lastHolds.hasLines.close, ?_⟩, ?_⟩
  · simp only [Arena.close, lastHolds.noTrailing, lastHolds.isPending, List.nil_append]
  · simp only [writeFunction, bind, EStateM.bind, begun, wrote, ended]

/-- Writing listed functions adds functions with the listed lines. -/
theorem exists_forM_writeFunction
    (indexed : codeUnit.Indexed)
    (outside : codeUnit.current = none)
    (isNatives : codeUnit.natives = natives)
    (lists : List.Forall₂ (Function.Lists natives) functions allLines)
    (writable : ∀ lines ∈ allLines, lines.Writable)
    (namesNodup :
      (codeUnit.finished.toList.map FunctionCode.name ++ allLines.map FunctionLines.name).Nodup) :
    ∃ codes : List FunctionCode, List.Forall₂ FunctionCode.Follows codes allLines ∧
      functions.forM writeFunction codeUnit =
        .ok () { codeUnit with finished := codeUnit.finished ++ codes } := by
  induction lists generalizing codeUnit with
  | nil => exact ⟨[], .nil, by simp [List.forM, pure, EStateM.pure]⟩
  | @cons function lines functions allLines here later ih =>
      obtain ⟨writableHere, writableLater⟩ := List.forall_mem_cons.mp writable
      have fresh : ∀ other ∈ codeUnit.finished, other.name ≠ lines.name := by
        intro other member same
        have inNames := List.mem_map_of_mem (f := FunctionCode.name)
          (Array.mem_toList_iff.mpr member)
        exact (List.nodup_append.mp namesNodup).2.2 _ inNames _ List.mem_cons_self same
      obtain ⟨code, follows, wrote⟩ :=
        exists_writeFunction indexed outside (isNatives ▸ here) writableHere fresh
      have laterIndexed :
          CodeUnit.Indexed { codeUnit with finished := codeUnit.finished.push code } :=
        ⟨indexed.fewNatives, indexed.indices⟩
      obtain ⟨codes, followLater, wroteLater⟩ := ih laterIndexed outside isNatives
        writableLater (by simpa [follows.name] using namesNodup)
      refine ⟨code :: codes, .cons follows followLater, ?_⟩
      simp only [List.forM, bind, EStateM.bind, wrote]
      rw [wroteLater]
      simp

/-- Writing listed functions after their natives makes a unit with these natives and with functions
that have the listed lines. -/
theorem exists_writeFunctions
    (nativesNodup : natives.toList.Nodup)
    (fewNatives : natives.size ≤ maxNatives)
    (lists : List.Forall₂ (Function.Lists natives) functions allLines)
    (writable : ∀ lines ∈ allLines, lines.Writable)
    (namesNodup : (allLines.map FunctionLines.name).Nodup) :
    ∃ codeUnit : CodeUnit, writeFunctions natives functions {} = .ok () codeUnit ∧
      codeUnit.natives = natives ∧ codeUnit.current = none ∧
      List.Forall₂ FunctionCode.Follows codeUnit.finished.toList allLines := by
  obtain ⟨middle, added, indexed, isNatives, noFunctions, outside⟩ :=
    CodeUnit.forM_nativeIndex_eq CodeUnit.indexed_empty
      (by simpa using nativesNodup) (by simpa using fewNatives)
  replace isNatives : middle.natives = natives := by simpa using isNatives
  obtain ⟨codes, follow, wrote⟩ := exists_forM_writeFunction indexed outside isNatives lists
    writable (by simpa [noFunctions] using namesNodup)
  refine ⟨{ middle with finished := middle.finished ++ codes }, ?_, isNatives, outside, ?_⟩
  · change EStateM.bind _ (fun _ => functions.forM writeFunction) {} = _
    rw [EStateM.bind, added]
    exact wrote
  · simpa [noFunctions] using follow

end Listing

/-- Functions with given lines are placed by the calls for these lines. -/
theorem forM_placeFunction_eq
    {codes : List FunctionCode} {allLines : List FunctionLines}
    (follow : List.Forall₂ FunctionCode.Follows codes allLines)
    (writable : ∀ lines ∈ allLines, lines.Writable) :
    codes.forM CodeUnit.placeFunction =
      Builder.placeCalls (allLines.flatMap FunctionLines.calls) := by
  induction follow with
  | nil => rfl
  | @cons code lines codes allLines here later ih =>
      obtain ⟨writableHere, writableLater⟩ := List.forall_mem_cons.mp writable
      rw [List.flatMap_cons, Builder.placeCalls_append, ← ih writableLater,
        FunctionLines.calls, ← here.name, ← here.trailing,
        ← Builder.placeFunction_eq here.hasLines.entries_eq writableHere.encodable]
      rfl
end ScriptBytecode
