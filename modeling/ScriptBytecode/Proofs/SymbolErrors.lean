import ScriptBytecode.Proofs.AssembledUnit
import ScriptBytecode.Proofs.FinishedUnits
import ScriptBytecode.Proofs.StringSegments

/-!
# Errors about names

A listing defines the names of its functions and labels and uses such names as targets.  If every
name is defined once and every target is defined, then the listing is assembled without an error
about a name: what can still fail is the reading of an operand, a limit of the format or a string.
-/

namespace ScriptBytecode

/-- An error about the name of a label or function, which is not defined, defined twice or
empty. -/
inductive Error.Symbolic : Error → Prop
  | undefinedLabel (function label : String) : Symbolic (.undefinedLabel function label)
  | undefinedFunction (name : String) : Symbolic (.undefinedFunction name)
  | duplicateLabel (function label : String) : Symbolic (.duplicateLabel function label)
  | duplicateFunction (name : String) : Symbolic (.duplicateFunction name)
  | emptyLabel : Symbolic .emptyLabel

/-- What the references of a statement name, in order. -/
def Statement.targets (statement : Statement) : List (ReferenceKind × String) :=
  statement.fragment.references.map fun reference => (reference.kind, reference.target)

theorem FunctionCode.Follows.targets_eq
    {function : FunctionCode} {lines : FunctionLines}
    (follows : function.Follows lines) :
    function.targets = lines.lines.flatMap fun line => line.2.targets := by
  rw [FunctionCode.targets, follows.entries_eq, List.flatMap_map]
  rfl

/-- Every element of a list has one that it is related to. -/
theorem exists_related_of_mem
    {α β : Type} {related : α → β → Prop} {left : List α} {right : List β}
    (areRelated : List.Forall₂ related left right)
    {element : α}
    (member : element ∈ left) :
    ∃ other ∈ right, related element other := by
  induction areRelated with
  | nil => cases member
  | cons isRelated later ih =>
      rcases List.mem_cons.mp member with rfl | inRest
      · exact ⟨_, List.mem_cons_self, isRelated⟩
      · obtain ⟨other, isOther, found⟩ := ih inRest
        exact ⟨other, List.mem_cons_of_mem _ isOther, found⟩

/-! ## Names in a listing -/

namespace Listing

variable {functions : List Function} {error : Error} {table : StringTable} {codeUnit : CodeUnit}
    {fuse : Bool}

/-- The label that an item places. -/
def Item.label? : Item → Option String
  | .label name => some name
  | .instruction _ _ _ => none

/-- What the references of an order name. -/
def Order.targets : Order → List (ReferenceKind × String)
  | .statement other => other.targets
  | .native _ _ _ => []

/-- What the operands of an item name, if they can be read. -/
def Item.targets : Item → List (ReferenceKind × String)
  | .label _ => []
  | .instruction _ mnemonic operands =>
    match readInstruction mnemonic operands with
    | .ok order => order.targets
    | .error _ => []

theorem Item.targets_of_read
    {mnemonic : String} {operands : List String} {order : Order}
    (read : readInstruction mnemonic operands = .ok order)
    (address : Option Nat) :
    Item.targets (.instruction address mnemonic operands) = order.targets := by
  unfold Item.targets
  simp only [read]

/-- The labels of a function, in order. -/
def Function.labels (function : Function) : List String :=
  function.items.filterMap Item.label?

/-- What the operands of a function name, in order. -/
def Function.targets (function : Function) : List (ReferenceKind × String) :=
  function.items.flatMap Item.targets

/-- Functions that define every name once and use only names that they define: labels in the
function of the label, and functions anywhere. -/
structure NamesDefined (functions : List Function) : Prop where
  names : (functions.map Function.name).Nodup
  labels : ∀ function ∈ functions, function.labels.Nodup
  notEmpty : ∀ function ∈ functions, ∀ label ∈ function.labels, label.isEmpty = false
  jumps : ∀ function ∈ functions, ∀ label, (.relative, label) ∈ function.targets →
    label ∈ function.labels
  calls : ∀ function ∈ functions, ∀ name, (.absolute, name) ∈ function.targets →
    name ∈ functions.map Function.name

/-- Lines with the labels and targets of a listed function. -/
structure Function.WrittenAs (function : Function) (lines : FunctionLines) : Prop where
  name : lines.name = function.name
  encodable : ∀ line ∈ lines.lines, line.2.Encodable
  labels : lines.labels = function.labels
  targets : lines.lines.flatMap (fun line => line.2.targets) = function.targets

/-! ## Units while a listing is written -/

/-- Finished functions with the names, labels and targets of listed ones. -/
def Finished (functions : List Function) (finished : Array FunctionCode) : Prop :=
  ∃ allLines, List.Forall₂ FunctionCode.Follows finished.toList allLines ∧
    List.Forall₂ Function.WrittenAs functions allLines

/-- A unit to which listed functions have been written. -/
structure Wrote (functions : List Function) (codeUnit : CodeUnit) : Prop where
  finished : Finished functions codeUnit.finished
  outside : codeUnit.current = none

/-- A unit to which listed functions have been written, and after them a part of a function with
given labels and targets. -/
structure Writes (functions : List Function) (name : String) (labels : List String)
    (targets : List (ReferenceKind × String)) (codeUnit : CodeUnit) : Prop where
  finished : Finished functions codeUnit.finished
  isOpen : ∃ arena lines pending, codeUnit.current = some ⟨name, arena⟩ ∧
    arena.Holds lines pending ∧ (∀ line ∈ lines, line.2.Encodable) ∧
    FunctionLines.labels ⟨name, lines, pending⟩ = labels ∧
    lines.flatMap (fun line => line.2.targets) = targets

/-- An action that leads from units of one kind to units of another, and that fails only with
errors that are not about names. -/
def Leads {α : Type} (before : CodeUnit → Prop) (action : UnitM α) (after : CodeUnit → Prop) :
    Prop :=
  ∀ codeUnit, before codeUnit →
    match action codeUnit with
    | .ok _ next => after next
    | .error error _ => ¬error.Symbolic

section Leads

variable {α β : Type} {before middle after : CodeUnit → Prop}

theorem leads_pure (property : CodeUnit → Prop) (value : α) :
    Leads property (pure value) property :=
  fun _ holds => holds

theorem Leads.bind
    {first : UnitM α} {next : α → UnitM β}
    (firstLeads : Leads before first middle)
    (nextLeads : ∀ answer, Leads middle (next answer) after) :
    Leads before (first >>= next) after := by
  intro codeUnit holds
  have done := firstLeads codeUnit holds
  simp only [Bind.bind, EStateM.bind]
  cases result : first codeUnit with
  | error error rest =>
      rw [result] at done
      exact done
  | ok answer rest =>
      rw [result] at done
      exact nextLeads answer rest done

/-- Looking up a native keeps what does not depend on the natives. -/
theorem leads_nativeIndex
    (hash : UInt64)
    (independent : ∀ codeUnit natives nativeIndices, before codeUnit →
      before { codeUnit with natives, nativeIndices }) :
    Leads before (CodeUnit.nativeIndex hash) before := by
  intro codeUnit holds
  rcases codeUnit.nativeIndex_outcomes hash with ⟨_, -, found⟩ | ⟨-, -, added⟩ | ⟨-, -, refused⟩
  · rw [found]
    exact holds
  · rw [added]
    exact independent codeUnit _ _ holds
  · rw [refused]
    rintro ⟨⟩

theorem leads_forM
    {elements : List α} {action : α → UnitM Unit}
    (actionLeads : ∀ element ∈ elements, Leads before (action element) before) :
    Leads before (elements.forM action) before := by
  induction elements with
  | nil => exact leads_pure before ()
  | cons element rest ih =>
      obtain ⟨here, later⟩ := List.forall_mem_cons.mp actionLeads
      exact here.bind fun _ => ih later

end Leads

section Writing

variable {functions : List Function} {name : String} {labels : List String}
    {targets : List (ReferenceKind × String)} {error : Error}

theorem leads_label
    {label : String}
    (notEmpty : label.isEmpty = false)
    (fresh : label ∉ labels) :
    Leads (Writes functions name labels targets) (CodeUnit.label label)
      (Writes functions name (labels ++ [label]) targets) := by
  rintro codeUnit ⟨finished, arena, lines, pending, isOpen, holds, encodable, rfl, isTargets⟩
  rw [CodeUnit.label_of_open isOpen notEmpty (holds.hasLabel_eq_false fresh)]
  refine ⟨finished, _, lines, _, rfl, holds.addLabel label, encodable, ?_, isTargets⟩
  exact (List.append_assoc _ _ _).symm

theorem leads_emit
    {statement : Statement}
    (emittable : statement.Emittable) :
    Leads (Writes functions name labels targets) (CodeUnit.emit statement)
      (Writes functions name labels (targets ++ statement.targets)) := by
  rintro codeUnit ⟨finished, arena, lines, pending, current, holds, encodable, isLabels, rfl⟩
  rcases codeUnit.emit_outcomes statement with
    ⟨-, failed⟩ | ⟨-, failed⟩ | ⟨function, _, isOpen, fewCases, emitted⟩
  · rw [failed]
    rintro ⟨⟩
  · rw [failed]
    rintro ⟨⟩
  · cases current.symm.trans isOpen
    rw [emitted]
    refine ⟨finished, _, _, _, rfl, holds.push statement, ?_, ?_, ?_⟩
    · rw [List.forall_mem_append, List.forall_mem_singleton]
      exact ⟨encodable, emittable, fewCases⟩
    · simpa [FunctionLines.labels] using isLabels
    · rw [List.flatMap_append, List.flatMap_singleton]

theorem leads_writeOrder
    {order : Order}
    (readable : order.Readable) :
    Leads (Writes functions name labels targets) (writeOrder order)
      (Writes functions name labels (targets ++ order.targets)) := by
  cases order with
  | statement statement =>
      exact (leads_emit readable.1).bind fun _ => leads_pure _ _
  | native parameters returns hash =>
      have keepsUnit : ∀ codeUnit natives nativeIndices,
          Writes functions name labels targets codeUnit →
          Writes functions name labels targets { codeUnit with natives, nativeIndices } :=
        fun _ _ _ writes => ⟨writes.finished, writes.isOpen⟩
      have emitted : Leads (Writes functions name labels targets)
          (CodeUnit.native parameters returns hash)
          (Writes functions name labels (targets ++ [])) :=
        (leads_nativeIndex hash keepsUnit).bind fun index =>
          leads_emit (Statement.native_emittable parameters returns index)
      exact emitted.bind fun _ => leads_pure _ _

/-- Reading a listed instruction fails only with malformed texts. -/
theorem not_symbolic_of_readInstruction
    {mnemonic : String} {operands : List String}
    (failed : readInstruction mnemonic operands = .error error) :
    ¬error.Symbolic := by
  unfold readInstruction Opcode.read at failed
  split at failed
  · simp only [Bind.bind, Except.bind] at failed
    split at failed
    · cases failed
    · cases failed
      rintro ⟨⟩
  · cases failed
    rintro ⟨⟩

/-- An item whose label, if it is one, is new adds its label or its targets. -/
theorem leads_writeItem
    {item : Item}
    (notEmpty : ∀ label ∈ item.label?, label.isEmpty = false)
    (fresh : ∀ label ∈ item.label?, label ∉ labels) :
    Leads (Writes functions name labels targets) (writeItem item)
      (Writes functions name (labels ++ item.label?.toList) (targets ++ item.targets)) := by
  cases item with
  | label label =>
      have noTargets : targets ++ (Item.label label).targets = targets := List.append_nil targets
      rw [noTargets]
      exact leads_label (notEmpty label (Option.mem_some_self label))
        (fresh label (Option.mem_some_self label))
  | instruction address mnemonic operands =>
      simp only [Item.label?, Option.toList_none, List.append_nil]
      cases read : readInstruction mnemonic operands with
      | ok order =>
          have isOrder : writeItem (.instruction address mnemonic operands) = writeOrder order := by
            unfold writeItem
            simp only [read]
          rw [isOrder, Item.targets_of_read read]
          exact leads_writeOrder (readInstruction_readable read)
      | error error =>
          intro codeUnit _
          unfold writeItem
          simp only [read]
          exact not_symbolic_of_readInstruction read

theorem symbolic_of_locate
    {function : String} {index : Nat}
    (symbolic : (locate function index error).Symbolic) :
    error.Symbolic := by
  cases error with
  | malformed cause => cases symbolic
  | _ => exact symbolic

/-- Items with labels that are new and differ from each other add their labels and targets. -/
theorem leads_writeItems
    (function : String)
    (index : Nat)
    {items : List Item}
    (notEmpty : ∀ label ∈ items.filterMap Item.label?, label.isEmpty = false)
    (nodup : (labels ++ items.filterMap Item.label?).Nodup) :
    Leads (Writes functions name labels targets) (writeItems function index items)
      (Writes functions name (labels ++ items.filterMap Item.label?)
        (targets ++ items.flatMap Item.targets)) := by
  induction items generalizing index labels targets with
  | nil =>
      rw [List.filterMap_nil, List.flatMap_nil, List.append_nil, List.append_nil]
      exact leads_pure _ ()
  | cons item rest ih =>
      have divided : (item :: rest).filterMap Item.label? =
          item.label?.toList ++ rest.filterMap Item.label? := by
        rw [List.filterMap_cons]
        cases item.label? <;> rfl
      rw [divided] at notEmpty nodup ⊢
      rw [← List.append_assoc] at nodup ⊢
      rw [List.flatMap_cons, ← List.append_assoc]
      obtain ⟨emptyHere, emptyLater⟩ := List.forall_mem_append.mp notEmpty
      have fresh : ∀ label ∈ item.label?, label ∉ labels := by
        intro label isLabel known
        have disjoint := (List.nodup_append.mp (List.nodup_append.mp nodup).1).2.2
        exact disjoint label known label (Option.mem_toList.mpr isLabel) rfl
      intro codeUnit writes
      have done := leads_writeItem (fun label isLabel =>
        emptyHere label (Option.mem_toList.mpr isLabel)) fresh codeUnit writes
      simp only [writeItems]
      cases wrote : writeItem item codeUnit with
      | error error next =>
          rw [wrote] at done
          exact fun symbolic => done (symbolic_of_locate symbolic)
      | ok answer next =>
          rw [wrote] at done
          exact ih (index + 1) emptyLater nodup next done

end Writing

/-! ## Whole functions -/

/-- Finished functions have the names, labels and targets of the listed ones. -/
theorem Finished.map_eq
    {finished : Array FunctionCode}
    (written : Finished functions finished) :
    finished.toList.map (fun function => (function.name, function.labels, function.targets)) =
      functions.map fun function => (function.name, function.labels, function.targets) := by
  obtain ⟨allLines, follow, writtenAs⟩ := written
  generalize finished.toList = finishedFunctions at follow ⊢
  induction writtenAs generalizing finishedFunctions with
  | nil =>
      cases follow
      rfl
  | cons isWritten later ih =>
      cases follow with
      | cons follows followLater =>
          rw [List.map_cons, List.map_cons, ih _ followLater, follows.labels_eq,
            follows.targets_eq, isWritten.labels, isWritten.targets, follows.name, isWritten.name]

theorem leads_beginFunction
    {name : String}
    (fresh : name ∉ functions.map Function.name) :
    Leads (Wrote functions) (CodeUnit.beginFunction name) (Writes functions name [] []) := by
  rintro codeUnit ⟨finished, outside⟩
  have unused : codeUnit.finished.any (·.name == name) = false := by
    rw [Array.any_eq_false']
    intro function member isName
    have names := congrArg (List.map Prod.fst) finished.map_eq
    simp only [List.map_map, Function.comp_def] at names
    apply fresh
    rw [← names, ← eq_of_beq isName]
    exact List.mem_map_of_mem (Array.mem_toList_iff.mpr member)
  rw [CodeUnit.beginFunction_of_outside outside unused]
  exact ⟨finished, {}, [], [], rfl, .empty, by simp, rfl, rfl⟩

theorem leads_endFunction (functions : List Function) (function : Function) :
    Leads (Writes functions function.name function.labels function.targets) CodeUnit.endFunction
      (Wrote (functions ++ [function])) := by
  rintro ⟨unitFunctions, current, natives, nativeIndices⟩
    ⟨⟨allLines, follow, writtenAs⟩, arena, lines, pending, rfl, holds, encodable, isLabels,
      isTargets⟩
  refine ⟨⟨allLines ++ [⟨function.name, lines, pending⟩], ?_, ?_⟩, rfl⟩
  · rw [Array.toList_push]
    exact List.rel_append follow (.cons (holds.follows_close function.name) .nil)
  · exact List.rel_append writtenAs (.cons ⟨rfl, encodable, isLabels, isTargets⟩ .nil)

theorem leads_writeFunction
    {function : Function}
    (fresh : function.name ∉ functions.map Function.name)
    (nodup : function.labels.Nodup)
    (notEmpty : ∀ label ∈ function.labels, label.isEmpty = false) :
    Leads (Wrote functions) (writeFunction function) (Wrote (functions ++ [function])) :=
  (leads_beginFunction fresh).bind fun _ =>
    (leads_writeItems function.name 0 notEmpty nodup).bind fun _ =>
      leads_endFunction functions function

/-- Functions with names that are new and differ from each other are written one after the
other. -/
theorem leads_writeFunctions
    {written : List Function}
    (names : ((written ++ functions).map Function.name).Nodup)
    (nodup : ∀ function ∈ functions, function.labels.Nodup)
    (notEmpty : ∀ function ∈ functions, ∀ label ∈ function.labels, label.isEmpty = false) :
    Leads (Wrote written) (functions.forM writeFunction) (Wrote (written ++ functions)) := by
  induction functions generalizing written with
  | nil =>
      rw [List.append_nil]
      exact leads_pure _ ()
  | cons function rest ih =>
      obtain ⟨nodupHere, nodupLater⟩ := List.forall_mem_cons.mp nodup
      obtain ⟨notEmptyHere, notEmptyLater⟩ := List.forall_mem_cons.mp notEmpty
      have fresh : function.name ∉ written.map Function.name := by
        rw [List.map_append, List.nodup_append] at names
        exact fun used => names.2.2 _ used _ List.mem_cons_self rfl
      rw [List.append_cons] at names ⊢
      exact (leads_writeFunction fresh nodupHere notEmptyHere).bind fun _ =>
        ih names nodupLater notEmptyLater

/-! ## Finishing -/

theorem not_symbolic_of_placeStrings
    {strings : List (Nat × String)}
    (failed : StringTable.result (placeStrings strings) table = .error error) :
    ¬error.Symbolic := by
  induction strings generalizing table with
  | nil => cases failed
  | cons entry rest ih =>
      rw [placeStrings, StringTable.result_bind, StringTable.result] at failed
      rcases table.place_outcomes entry.1 entry.2 with ⟨-, refused⟩ | ⟨-, -, placed⟩
      · rw [refused] at failed
        cases failed
        rintro ⟨⟩
      · rw [placed] at failed
        exact ih failed

theorem not_symbolic_of_addStrings
    {strings : List String}
    (failed : StringTable.result (addStrings strings) table = .error error) :
    ¬error.Symbolic := by
  induction strings generalizing table with
  | nil => cases failed
  | cons value rest ih =>
      rw [addStrings, StringTable.result_bind, StringTable.result] at failed
      rcases table.add_outcomes value with ⟨_, -, known⟩ | ⟨-, -, refused⟩ | ⟨_, -, -, -, stored⟩
      · rw [known] at failed
        exact ih failed
      · rw [refused] at failed
        cases failed
        rintro ⟨⟩
      · rw [stored] at failed
        exact ih failed

theorem not_symbolic_of_stringPages
    {config : Config}
    (failed : stringPages config = .error error) :
    ¬error.Symbolic := by
  rw [stringPages, map_eq_error_iff, result_writeStrings] at failed
  cases placed : StringTable.result (placeStrings (sortByKey Prod.fst (config.strings.filterMap
      fun entry => entry.id.map fun id => (id, entry.value)))) {} with
  | error other =>
      rw [placed] at failed
      cases failed
      exact not_symbolic_of_placeStrings placed
  | ok table =>
      rw [placed] at failed
      exact not_symbolic_of_addStrings failed

/-- A unit with functions that define their names can be placed. -/
theorem Wrote.writable
    (defined : NamesDefined functions)
    (wrote : Wrote functions codeUnit) :
    codeUnit.Writable := by
  have names := congrArg (List.map Prod.fst) wrote.finished.map_eq
  simp only [List.map_map, Function.comp_def] at names
  obtain ⟨⟨allLines, follow, writtenAs⟩, outside⟩ := wrote
  refine ⟨⟨allLines, follow, ?_⟩, by simp [outside], ?_⟩
  · intro lines member
    obtain ⟨function, isFunction, written⟩ := exists_related_of_mem writtenAs.flip member
    refine ⟨written.encodable, ?_, ?_⟩
    · rw [written.labels]
      exact defined.labels function isFunction
    · rw [written.labels]
      exact defined.notEmpty function isFunction
  · simp only [CodeUnit.functions, outside, names]
    exact defined.names

/-- A reference of functions that define their names does not offend by its name. -/
theorem NamesDefined.not_symbolic_of_offends
    (defined : NamesDefined functions)
    {allSymbols : List FunctionSymbols}
    (sameLabels : allSymbols.map
        (fun symbols => (symbols.name, symbols.labels.map Prod.fst)) =
      functions.map fun function => (function.name, function.labels))
    {fixup : Fixup}
    (isTarget : (fixup.function, fixup.kind, fixup.target) ∈
      functions.flatMap fun function => function.targets.map (function.name, ·))
    (offends : fixup.Offends allSymbols error) :
    ¬error.Symbolic := by
  obtain ⟨function, isFunction, inFunction⟩ := List.mem_flatMap.mp isTarget
  obtain ⟨target, used, same⟩ := List.mem_map.mp inFunction
  obtain ⟨isName, rfl⟩ := Prod.mk.inj same
  have exists_symbols : ∀ other ∈ functions, ∃ symbols ∈ allSymbols,
      symbols.name = other.name ∧ symbols.labels.map Prod.fst = other.labels := by
    intro other isOther
    have member := List.mem_map_of_mem
      (f := fun function : Function => (function.name, function.labels)) isOther
    rw [← sameLabels] at member
    obtain ⟨symbols, isSymbols, same⟩ := List.mem_map.mp member
    exact ⟨symbols, isSymbols, Prod.mk.inj same⟩
  cases offends with
  | undefinedLabel isRelative unplaced =>
      obtain ⟨symbols, isSymbols, sameName, labels⟩ := exists_symbols function isFunction
      rw [isRelative] at used
      have placed := defined.jumps function isFunction _ used
      rw [← labels] at placed
      exact fun _ => unplaced symbols isSymbols (sameName.trans isName) placed
  | undefinedFunction isAbsolute unknown =>
      rw [isAbsolute] at used
      obtain ⟨called, isCalled, isTarget⟩ :=
        List.mem_map.mp (defined.calls function isFunction _ used)
      obtain ⟨symbols, isSymbols, sameName, -⟩ := exists_symbols called isCalled
      exact fun _ => unknown symbols isSymbols (sameName.trans isTarget)
  | jumpOutOfRange isRelative symbols member isFunction target placed far => rintro ⟨⟩
  | addressOutOfRange isAbsolute symbols member isFunction far => rintro ⟨⟩

/-- Finishing a unit with functions that define their names fails with no error about a name. -/
theorem Wrote.not_symbolic_of_finish
    (defined : NamesDefined functions)
    (wrote : Wrote functions codeUnit)
    (failed : codeUnit.finish fuse = .error error) :
    ¬error.Symbolic := by
  obtain ⟨⟨allLines, follow, linesWritable⟩, sameMentions⟩ :=
    (wrote.writable defined).exists_placedFunctions fuse
  have same := FunctionCode.map_labels_targets sameMentions
  rw [wrote.finished.map_eq] at same
  -- Fusing keeps names, labels and targets, so what is placed defines what the listing defines.
  have sameNames := congrArg (List.map Prod.fst) same
  have sameLabels := congrArg (List.map fun kept => (kept.1, kept.2.1)) same
  have sameTargets := congrArg (List.flatMap fun kept => kept.2.2.map (kept.1, ·)) same
  simp only [List.map_map, List.flatMap_map, Function.comp_def] at sameNames sameLabels sameTargets
  have names : ((codeUnit.placedFunctions fuse).map FunctionCode.name).Nodup := by
    rw [sameNames]
    exact defined.names
  obtain ⟨builder, placed, fails, -⟩ := exists_finish_of_follow follow linesWritable names
  obtain ⟨wrap, finishes⟩ := CodeUnit.exists_finish_eq_map wrote.outside placed
  rw [finishes, map_eq_error_iff, fails] at failed
  obtain ⟨before, fixup, after, isFixups, -, offends⟩ := failed
  refine defined.not_symbolic_of_offends
    ((FunctionCode.map_symbolsFrom 0 _).trans sameLabels) ?_ offends
  rw [← sameTargets, ← FunctionCode.map_fixupsFrom 0, isFixups]
  exact List.mem_map.mpr ⟨fixup, by simp, rfl⟩

/-- A listing that defines every name it uses, once, is assembled without an error about a name,
fused or not. -/
theorem NamesDefined.not_symbolic_of_assemble
    {listing : Listing}
    (defined : NamesDefined listing.functions)
    (failed : listing.assemble fuse = .error error) :
    ¬error.Symbolic := by
  have natives : Leads (Wrote []) (listing.config.natives.toList.forM fun hash => do
      let _ ← CodeUnit.nativeIndex hash) (Wrote []) :=
    leads_forM fun hash _ => (leads_nativeIndex hash fun _ _ _ wrote =>
      ⟨wrote.finished, wrote.outside⟩).bind fun _ => leads_pure _ _
  have written : Leads (Wrote []) (writeFunctions listing.config.natives listing.functions)
      (Wrote listing.functions) :=
    natives.bind fun _ => leads_writeFunctions defined.names defined.labels defined.notEmpty
  have done := written {} ⟨⟨[], .nil, .nil⟩, rfl⟩
  unfold assemble at failed
  simp only at failed
  cases wrote : writeFunctions listing.config.natives listing.functions {} with
  | error other codeUnit =>
      rw [wrote] at done failed
      cases failed
      exact done
  | ok answer codeUnit =>
      rw [wrote] at done failed
      simp only [Bind.bind, Except.bind] at failed
      split at failed
      · rename_i other isError
        cases failed
        exact not_symbolic_of_stringPages isError
      · split at failed
        · rename_i other isError
          cases failed
          exact done.not_symbolic_of_finish defined isError
        · cases failed

end Listing
end ScriptBytecode
