import ScriptBytecode.Proofs.AcceptedCalls
import ScriptBytecode.Proofs.LinkFailures

/-!
# Finishing a code unit

A code unit checks names, labels and operands while it is written, so when it is finished its
functions are placed without any failure, fused or not.  What is left to fail is an open function
and the references.  Fusing neither loses nor moves a label or a reference, so what is linked are
the labels and references of the calls that were accepted.
-/

namespace ScriptBytecode

open Builder

variable {entries others : List Entry} {lines : List Line}

/-! ## Fusing keeps what is mentioned -/

/-- The instruction that goes in a fusion has no operand that could be a reference. -/
theorem Fusion.find?_cases
    {first second : Bytes} {fusion : Fusion}
    (found : Fusion.find? first second = some fusion) :
    (∃ opcode, opcodeOf? second = some opcode ∧ opcode.layout ∈ [OperandLayout.none, .u8] ∧
        ∀ bytes, fusion ≠ .intoSecond bytes) ∨
      ∃ opcode, opcodeOf? first = some opcode ∧ opcode.layout ∈ [OperandLayout.none, .u8] ∧
        ∃ bytes, fusion = .intoSecond bytes := by
  rcases rule_of_find? found with access | s16 | u8 | pushes | jump
  · left
    simp only [addressAccess?, Option.bind_eq_bind, Option.bind_eq_some_iff] at access
    obtain ⟨access, ⟨opcode, isOpcode, isAccess⟩, _, _, _, _, isFusion⟩ := access
    cases isFusion
    refine ⟨opcode, isOpcode, ?_, by simp⟩
    rcases accessOf?_eq_some isAccess with ⟨rfl, _⟩ | ⟨rfl, _⟩ <;> decide
  · left
    simp only [arithS16?, Option.bind_eq_bind, Option.bind_eq_some_iff,
      Option.ite_none_right_eq_some] at s16
    obtain ⟨opcode, isOpcode, _, isFused, _, isFusion⟩ := s16
    cases isFusion
    obtain ⟨_, _, layout, _⟩ := withImmediate?_eq_some isFused
    exact ⟨opcode, isOpcode, by simp [layout], by simp⟩
  · left
    simp only [arithU8?, Option.bind_eq_bind, Option.bind_eq_some_iff] at u8
    obtain ⟨opcode, isOpcode, _, isFused, _, _, u8⟩ := u8
    obtain ⟨_, _, layout, _⟩ := withImmediate?_eq_some isFused
    refine ⟨opcode, isOpcode, by simp [layout], ?_⟩
    rintro bytes rfl
    split at u8 <;> simp [Option.bind_eq_some_iff] at u8
  · left
    simp only [mergePushes?, Option.bind_eq_bind, Option.bind_eq_some_iff,
      Option.ite_none_right_eq_some] at pushes
    obtain ⟨_, _, _, _, isOpcode, _, _, isFusion⟩ := pushes
    cases isFusion
    exact ⟨.pushConstU8, isOpcode, by decide, by simp⟩
  · right
    simp only [compareJump?, Option.bind_eq_bind, Option.bind_eq_some_iff,
      Option.ite_none_right_eq_some] at jump
    obtain ⟨opcode, isOpcode, _, isFused, _, isFusion⟩ := jump
    cases isFusion
    obtain ⟨_, layout, _⟩ := compareJump?_eq_some isFused
    exact ⟨opcode, isOpcode, by simp [layout], _, rfl⟩

/-- A statement whose opcode takes no targets has no references. -/
theorem Statement.Encodable.references_eq_nil
    {statement : Statement}
    (encodable : statement.Encodable)
    {opcode : Opcode}
    (isOpcode : opcodeOf? statement.fragment.bytes = some opcode)
    (layout : opcode.layout ∈ [OperandLayout.none, .u8]) :
    statement.fragment.references = [] := by
  rw [opcodeOf?_fragment, Option.some_inj] at isOpcode
  have notIn : ∀ other, other ∉ [OperandLayout.none, .u8] → opcode.layout ≠ other := by
    rintro other notIn rfl
    exact notIn layout
  have noCall : opcode ≠ .call := by
    rintro rfl
    exact absurd layout (by decide)
  obtain ⟨operands, rfl, _⟩ :=
    encodable.eq_plain isOpcode (notIn _ (by decide)) (notIn _ (by decide)) noCall
  rfl

/-- A fusion of lines keeps what they mention. -/
theorem Arena.FusionStep.mentions
    (step : FusionStep entries others)
    (isEntries : entries = lines.map Line.entry)
    (encodable : ∀ line ∈ lines, line.2.Encodable) :
    others.flatMap Entry.mentions = entries.flatMap Entry.mentions := by
  have noReferences : ∀ entry ∈ entries, ∀ opcode, opcodeOf? entry.bytes = some opcode →
      opcode.layout ∈ [OperandLayout.none, .u8] → entry.references = [] := by
    rw [isEntries, List.forall_mem_map]
    intro line member opcode isOpcode layout
    exact (encodable line member).references_eq_nil isOpcode layout
  clear isEntries
  -- The instruction that goes has no references, and its labels are those of the one that stays.
  cases step with
  | intoFirst before after noLabel found =>
      rename_i first second bytes
      rcases Fusion.find?_cases found with ⟨opcode, isOpcode, layout, _⟩ | ⟨_, _, _, _, ⟨⟩⟩
      have noReference := noReferences second (by simp) opcode isOpcode layout
      simp [Entry.mentions, noLabel, noReference]
  | intoSecond before after noLabel found =>
      rename_i first second bytes
      rcases Fusion.find?_cases found with ⟨_, _, _, never⟩ | ⟨opcode, isOpcode, layout, _⟩
      · exact absurd rfl (never bytes)
      · have noReference := noReferences first (by simp) opcode isOpcode layout
        simp [Entry.mentions, noLabel, noReference]
  | both before after noLabel found => simp [Entry.mentions]

/-- Any number of fusions of lines keeps what they mention. -/
theorem Arena.FusionSteps.mentions
    (steps : FusionSteps entries others)
    (isEntries : entries = lines.map Line.entry)
    (encodable : ∀ line ∈ lines, line.2.Encodable) :
    others.flatMap Entry.mentions = entries.flatMap Entry.mentions := by
  induction steps with
  | refl => rfl
  | tail earlier step ih =>
      obtain ⟨middle, isMiddle, fused⟩ := FusionSteps.lines earlier isEntries encodable
      exact (step.mentions isMiddle fused.encodable).trans ih

/-- Fusing a function that can be written gives one that can be written and mentions the same. -/
theorem FunctionCode.Follows.fuse
    {function : FunctionCode} {lines : FunctionLines}
    (follows : function.Follows lines)
    (writable : lines.Writable) :
    (∃ newLines, (CodeUnit.fuseFunction function).Follows newLines ∧ newLines.Writable) ∧
      (CodeUnit.fuseFunction function).mentions = function.mentions := by
  obtain ⟨live, represents, isLines⟩ := follows.hasLines
  obtain ⟨others, fusedRepresents, fusion, trailing⟩ := represents.fuse
  obtain ⟨newLines, isNew, fused⟩ := Arena.FusionSteps.lines fusion isLines writable.encodable
  have isEntries : function.entries = live.map Prod.snd := by
    rw [entries, represents.entries_eq]
  have fusedEntries : (CodeUnit.fuseFunction function).entries = others.map Prod.snd := by
    rw [entries, CodeUnit.fuseFunction, fusedRepresents.entries_eq]
  have newFollows : (CodeUnit.fuseFunction function).Follows
      ⟨function.name, newLines, function.arena.trailing⟩ :=
    ⟨rfl, ⟨others, fusedRepresents, isNew⟩, trailing⟩
  have sameMentions : (CodeUnit.fuseFunction function).mentions = function.mentions := by
    rw [mentions, mentions, fusedEntries, isEntries,
      Arena.FusionSteps.mentions fusion isLines writable.encodable]
    exact congrArg (fun labels : List String => _ ++ labels.map Mention.label) trailing
  have newLabels : FunctionLines.labels ⟨function.name, newLines, function.arena.trailing⟩ =
      lines.labels := by
    rw [← newFollows.labels_eq, ← follows.labels_eq, labels_eq_filterMap, sameMentions,
      labels_eq_filterMap]
  refine ⟨⟨_, newFollows, fused.encodable, ?_, ?_⟩, sameMentions⟩
  · rw [newLabels]
    exact writable.labelsNodup
  · rw [newLabels]
    exact writable.labelsNotEmpty

/-- Functions that mention the same have the same labels and the same targets. -/
theorem FunctionCode.map_labels_targets
    {functions others : List FunctionCode}
    (same : functions.map (fun function => (function.name, function.mentions)) =
      others.map fun function => (function.name, function.mentions)) :
    functions.map (fun function => (function.name, function.labels, function.targets)) =
      others.map fun function => (function.name, function.labels, function.targets) := by
  have mapped := congrArg (List.map fun function =>
    (function.1, function.2.filterMap Mention.label?, function.2.filterMap Mention.target?)) same
  simp only [List.map_map, Function.comp_def] at mapped
  simpa only [labels_eq_filterMap, targets_eq_filterMap] using mapped

/-! ## What a session keeps -/

theorem Arena.Holds.not_mem_of_hasLabel
    {arena : Arena} {pending : List String}
    (holds : arena.Holds lines pending)
    {label : String}
    (unused : arena.hasLabel label = false) :
    label ∉ lines.flatMap Prod.fst ++ pending := by
  rw [Arena.hasLabel, Bool.or_eq_false_iff, Bool.or_eq_false_iff, holds.isPending,
    ← Array.any_toList, holds.hasLines.entries_eq, List.any_map, List.any_eq_false] at unused
  obtain ⟨⟨notPending, _⟩, notPlaced⟩ := unused
  rw [List.mem_append, List.mem_flatMap]
  rintro (⟨line, member, isLabel⟩ | isPending)
  · exact notPlaced line member (List.contains_iff_mem.mpr isLabel)
  · simp [isPending] at notPending

/-- A unit whose functions can be written and have distinct names. -/
structure CodeUnit.Writable (codeUnit : CodeUnit) : Prop where
  finished : ∃ allLines, List.Forall₂ FunctionCode.Follows codeUnit.finished.toList allLines ∧
    ∀ lines ∈ allLines, lines.Writable
  current : ∀ function, codeUnit.current = some function → ∃ lines pending,
    function.arena.Holds lines pending ∧ FunctionLines.Writable ⟨function.name, lines, pending⟩
  names : (codeUnit.functions.toList.map FunctionCode.name).Nodup

namespace CodeUnit

variable {codeUnit : CodeUnit}

namespace Writable

variable {function : FunctionCode} {name : String}

theorem empty : Writable {} :=
  ⟨⟨[], .nil, by simp⟩, by simp, List.nodup_nil⟩

/-- A function whose name is new is begun without lines. -/
theorem beginFunction
    (writable : codeUnit.Writable)
    (outside : codeUnit.current = none)
    (unused : codeUnit.finished.any (·.name == name) = false) :
    (codeUnit.opened name {}).Writable := by
  refine ⟨writable.finished, ?_, ?_⟩
  · rintro _ ⟨⟩
    exact ⟨[], [], .empty, by simp, by simp [FunctionLines.labels],
      by simp [FunctionLines.labels]⟩
  · have names := writable.names
    simp only [functions, outside] at names
    have fresh : name ∉ codeUnit.finished.toList.map FunctionCode.name := by
      rw [Array.any_eq_false'] at unused
      intro used
      obtain ⟨function, member, same⟩ := List.mem_map.mp used
      exact unused function (Array.mem_toList_iff.mp member) (by simpa using same)
    simp only [opened, functions, Array.toList_push, List.map_append, List.map_cons, List.map_nil]
    rw [← List.concat_eq_append]
    exact names.concat fresh

/-- A unit that changes only in its open function, and not in its name. -/
theorem withArena
    (writable : codeUnit.Writable)
    (current : codeUnit.current = some function)
    {arena : Arena} {lines : List Line} {pending : List String}
    (holds : arena.Holds lines pending)
    (arenaWritable : FunctionLines.Writable ⟨function.name, lines, pending⟩) :
    (codeUnit.opened function.name arena).Writable := by
  refine ⟨writable.finished, ?_, ?_⟩
  · rintro _ ⟨⟩
    exact ⟨lines, pending, holds, arenaWritable⟩
  · have names := writable.names
    simpa [opened, functions, current] using names

/-- A label that is new is placed after all others. -/
theorem label
    (writable : codeUnit.Writable)
    (current : codeUnit.current = some function)
    (notEmpty : name.isEmpty = false)
    (unused : function.arena.hasLabel name = false) :
    (codeUnit.opened function.name (function.arena.addLabel name)).Writable := by
  obtain ⟨lines, pending, holds, encodable, nodup, labelsNotEmpty⟩ :=
    writable.current function current
  have fresh := holds.not_mem_of_hasLabel unused
  have labels : FunctionLines.labels ⟨function.name, lines, pending ++ [name]⟩ =
      FunctionLines.labels ⟨function.name, lines, pending⟩ ++ [name] :=
    (List.append_assoc _ _ _).symm
  refine writable.withArena current (holds.addLabel name) ⟨encodable, ?_, ?_⟩
  · rw [labels, ← List.concat_eq_append]
    exact nodup.concat fresh
  · rw [labels, List.forall_mem_append, List.forall_mem_singleton]
    exact ⟨labelsNotEmpty, notEmpty⟩

/-- A statement that can be encoded makes a line. -/
theorem emit
    (writable : codeUnit.Writable)
    (current : codeUnit.current = some function)
    {statement : Statement}
    (isEncodable : statement.Encodable) :
    (codeUnit.opened function.name (function.arena.push
      ⟨statement.fragment.bytes, statement.fragment.references, []⟩).2).Writable := by
  obtain ⟨lines, pending, holds, encodable, nodup, notEmpty⟩ := writable.current function current
  refine writable.withArena current (holds.push statement) ⟨?_, ?_, ?_⟩
  · rw [List.forall_mem_append, List.forall_mem_singleton]
    exact ⟨encodable, isEncodable⟩
  · simpa [FunctionLines.labels] using nodup
  · simpa [FunctionLines.labels] using notEmpty

theorem endFunction
    (writable : codeUnit.Writable)
    (current : codeUnit.current = some function) :
    Writable
      { codeUnit with
        finished := codeUnit.finished.push ⟨function.name, function.arena.close⟩
        current := none } := by
  obtain ⟨allLines, follow, linesWritable⟩ := writable.finished
  obtain ⟨lines, pending, holds, functionWritable⟩ := writable.current function current
  refine ⟨⟨allLines ++ [⟨function.name, lines, pending⟩], ?_, ?_⟩, by rintro _ ⟨⟩, ?_⟩
  · rw [Array.toList_push]
    exact List.rel_append follow (.cons (holds.follows_close function.name) .nil)
  · rw [List.forall_mem_append, List.forall_mem_singleton]
    exact ⟨linesWritable, functionWritable⟩
  · simpa [functions, current] using writable.names

/-- No change takes away that the functions of a unit can be written. -/
theorem change
    {next : CodeUnit}
    (writable : codeUnit.Writable)
    (change : Change Statement.Emittable codeUnit next) :
    next.Writable := by
  cases change with
  | beginFunction name outside fresh => exact writable.beginFunction outside fresh
  | label name function isOpen notEmpty fresh => exact writable.label isOpen notEmpty fresh
  | emit statement mayEmit function isOpen fewCases =>
      have emittable : statement.Emittable := by
        cases mayEmit with
        | statement emittable => exact emittable
        | native parameters returns => exact Statement.native_emittable parameters returns _
      exact writable.emit isOpen ⟨emittable, fewCases⟩
  | addNative hash => exact ⟨writable.finished, writable.current, writable.names⟩
  | endFunction function isOpen => exact writable.endFunction isOpen

/-- Every request keeps that the functions of a unit can be written. -/
theorem step
    (writable : codeUnit.Writable)
    {request : UnitRequest}
    (emittable : request.Emittable) :
    (stateAfter (request.run codeUnit)).Writable := by
  cases request with
  | nativeIndex hash =>
      rw [UnitRequest.run, stateAfter_ignore]
      exact (changes_nativeIndex hash).keep change writable
  | unitCall call =>
      have changes : Changes Statement.Emittable codeUnit (stateAfter (call.run codeUnit)) := by
        refine UnitCall.changes ?_
        rintro statement rfl
        exact emittable
      exact changes.keep change writable

theorem afterRequests
    {requests : List UnitRequest}
    (emittable : ∀ request ∈ requests, request.Emittable) :
    (afterRequests requests).Writable :=
  List.foldlRecOn requests _ empty fun _ writable request member =>
    writable.step (emittable request member)

end Writable

/-! ## Finishing -/

/-- Functions that can be written can be written after fusing, and mention the same. -/
theorem exists_follow_fuse
    {functions : List FunctionCode} {allLines : List FunctionLines}
    (follow : List.Forall₂ FunctionCode.Follows functions allLines)
    (writable : ∀ lines ∈ allLines, lines.Writable) :
    (∃ newLines, List.Forall₂ FunctionCode.Follows (functions.map fuseFunction) newLines ∧
        ∀ lines ∈ newLines, lines.Writable) ∧
      (functions.map fuseFunction).map (fun function => (function.name, function.mentions)) =
        functions.map fun function => (function.name, function.mentions) := by
  induction follow with
  | nil => exact ⟨⟨[], .nil, by simp⟩, rfl⟩
  | @cons function lines functions allLines here later ih =>
      obtain ⟨writableHere, writableLater⟩ := List.forall_mem_cons.mp writable
      obtain ⟨⟨newLines, follows, newWritable⟩, mentions⟩ := here.fuse writableHere
      obtain ⟨⟨others, followLater, othersWritable⟩, sameLater⟩ :=
        ih writableLater
      refine ⟨⟨newLines :: others, .cons follows followLater,
        List.forall_mem_cons.mpr ⟨newWritable, othersWritable⟩⟩, ?_⟩
      rw [List.map_cons, List.map_cons, List.map_cons, sameLater, mentions]
      rfl

/-- The functions that are placed can be written, fused or not, and mention what was written. -/
theorem Writable.exists_placedFunctions
    (writable : codeUnit.Writable)
    (fuse : Bool) :
    (∃ allLines, List.Forall₂ FunctionCode.Follows (codeUnit.placedFunctions fuse) allLines ∧
        ∀ lines ∈ allLines, lines.Writable) ∧
      (codeUnit.placedFunctions fuse).map (fun function => (function.name, function.mentions)) =
        codeUnit.finished.toList.map fun function => (function.name, function.mentions) := by
  obtain ⟨allLines, follow, linesWritable⟩ := writable.finished
  cases fuse with
  | false => exact ⟨⟨allLines, follow, linesWritable⟩, rfl⟩
  | true =>
      have isMap : codeUnit.placedFunctions true = codeUnit.finished.toList.map fuseFunction :=
        Array.toList_map
      rw [isMap]
      exact exists_follow_fuse follow linesWritable

/-- Finishing a unit whose functions are placed finishes the build of them. -/
theorem exists_finish_eq_map
    (outside : codeUnit.current = none)
    {fuse : Bool} {builder : Builder}
    (placed : (codeUnit.placedFunctions fuse).forM placeFunction {} = .ok () builder) :
    ∃ wrap : LinkedCode → UnitCode, codeUnit.finish fuse = builder.finish.map wrap := by
  refine ⟨fun linked => ⟨linked.pages, linked.length, codeUnit.natives, linked.functions⟩, ?_⟩
  have ran : EStateM.run ((if fuse = true then codeUnit.finished.map fuseFunction
      else codeUnit.finished).toList.forM placeFunction) {} = .ok () builder := placed
  unfold finish
  rw [outside, Option.isSome_none, if_neg (by decide)]
  simp only [ran]

/-- Outside of functions a unit fails by the first reference that offends, and only by that. -/
theorem Writable.finish_of_outside
    (writable : codeUnit.Writable)
    (outside : codeUnit.current = none)
    (fuse : Bool) :
    (∀ error, codeUnit.finish fuse = .error error ↔
        FirstOffence (FunctionCode.symbolsFrom 0 (codeUnit.placedFunctions fuse))
          (FunctionCode.fixupsFrom 0 (codeUnit.placedFunctions fuse)) error) ∧
      ((∃ code, codeUnit.finish fuse = .ok code) ↔
        ∀ fixup ∈ FunctionCode.fixupsFrom 0 (codeUnit.placedFunctions fuse),
          fixup.Linkable (FunctionCode.symbolsFrom 0 (codeUnit.placedFunctions fuse))) := by
  obtain ⟨⟨allLines, follow, linesWritable⟩, same⟩ := writable.exists_placedFunctions fuse
  have names := writable.names
  have sameNames := congrArg (List.map Prod.fst) same
  simp only [List.map_map, Function.comp_def] at sameNames
  simp only [functions, outside] at names
  rw [← sameNames] at names
  obtain ⟨builder, placed, fails, succeeds⟩ := exists_finish_of_follow follow linesWritable names
  obtain ⟨wrap, finishes⟩ := exists_finish_eq_map outside placed
  constructor
  · intro error
    rw [← fails error, finishes]
    exact map_eq_error_iff
  · rw [← succeeds, finishes]
    exact exists_map_eq_ok_iff

/-- How the unit of a session is finished. -/
structure FinishesExactly (requests : List UnitRequest) (fuse : Bool) : Prop where
  /-- The functions that are laid out mention what the accepted calls do, in their order. -/
  mentions : ((afterRequests requests).placedFunctions fuse).map
      (fun function => (function.name, function.mentions)) =
    (transcript requests).finished
  /-- The labels of the layout are those that were placed in the functions. -/
  labels : (FunctionCode.symbolsFrom 0 ((afterRequests requests).placedFunctions fuse)).map
      (fun symbols => (symbols.name, symbols.labels.map Prod.fst)) =
    (transcript requests).finished.map fun function =>
      (function.1, function.2.filterMap Mention.label?)
  /-- The references of the layout are those that were emitted in the functions, in order. -/
  targets : (FunctionCode.fixupsFrom 0 ((afterRequests requests).placedFunctions fuse)).map
      (fun fixup => (fixup.function, fixup.kind, fixup.target)) =
    (transcript requests).finished.flatMap fun function =>
      (function.2.filterMap Mention.target?).map (function.1, ·)
  /-- The only misplaced call is to finish inside of a function. -/
  misplaced : ∀ call, (afterRequests requests).finish fuse = .error (.misplaced call) ↔
    (transcript requests).current.isSome = true ∧ call = .codeFinishedInsideFunction
  /-- Outside of functions only references fail, by the first that offends. -/
  fails : (transcript requests).current = none → ∀ error,
    (afterRequests requests).finish fuse = .error error ↔
      FirstOffence (FunctionCode.symbolsFrom 0 ((afterRequests requests).placedFunctions fuse))
        (FunctionCode.fixupsFrom 0 ((afterRequests requests).placedFunctions fuse)) error
  /-- Code is made exactly if every reference can be linked. -/
  succeeds : (∃ code, (afterRequests requests).finish fuse = .ok code) ↔
    (transcript requests).current = none ∧
      ∀ fixup ∈ FunctionCode.fixupsFrom 0 ((afterRequests requests).placedFunctions fuse),
        fixup.Linkable
          (FunctionCode.symbolsFrom 0 ((afterRequests requests).placedFunctions fuse))

/-- Whatever calls are made, with operands of the kind that opcodes take, a unit is finished
exactly if no function is open and every reference that was emitted can be linked: a label is placed
in the function that refers to it, at a distance of 16 bits, and a function that is called is
defined at an address of 24 bits.  Else the error is that of the open function, or that of the first
reference that offends. -/
theorem finishesExactly_of_emittable
    {requests : List UnitRequest}
    (emittable : ∀ request ∈ requests, request.Emittable)
    (fuse : Bool) :
    FinishesExactly requests fuse := by
  have writable := Writable.afterRequests emittable
  have transcribes := transcribes_afterRequests requests
  have mentions := (writable.exists_placedFunctions fuse).2.trans transcribes.finished
  have labels := FunctionCode.map_labels_symbolsFrom 0
    ((afterRequests requests).placedFunctions fuse)
  have targets := FunctionCode.map_targets_fixupsFrom 0
    ((afterRequests requests).placedFunctions fuse)
  rw [mentions] at labels targets
  cases isCurrent : (afterRequests requests).current with
  | some function =>
      obtain ⟨_, _, -, isOpen⟩ := transcribes.inside function isCurrent
      have failed : (afterRequests requests).finish fuse =
          .error (.misplaced .codeFinishedInsideFunction) := by
        simp [finish, isCurrent]
      exact
        { mentions
          labels
          targets
          misplaced := by simp [failed, isOpen, eq_comm]
          fails := by simp [isOpen]
          succeeds := by simp [failed, isOpen] }
  | none =>
      have isClosed := transcribes.outside isCurrent
      obtain ⟨fails, succeeds⟩ := writable.finish_of_outside isCurrent fuse
      exact
        { mentions
          labels
          targets
          misplaced := by
            intro call
            rw [fails, isClosed]
            constructor
            · rintro ⟨_, _, _, _, _, offends⟩
              cases offends
            · rintro ⟨⟨⟩, _⟩
          fails := fun _ => fails
          succeeds := succeeds.trans (and_iff_right isClosed).symm }

/-- A session with calls that fail, a comparing jump to be fused, a switch and a label that is not
placed. -/
def unfinishableSession : List UnitRequest :=
  [.unitCall (.label "early"), .unitCall (.beginFunction "main"), .unitCall (.label "top"),
    .unitCall (.emit (.switch [(1, "done"), (2, "top")])),
    .unitCall (.emit (.plain .ieq .none)), .unitCall (.emit (.jump .jz "missing")),
    .unitCall (.emit (.call "nowhere")), .unitCall (.beginFunction "nested"),
    .unitCall (.label "done"), .unitCall (.label "done"), .unitCall .endFunction,
    .unitCall (.beginFunction "main"), .nativeIndex 9, .unitCall (.native 1 1 7)]

theorem finishesExactly_of_emittable_unfinishableSession :
    (∀ request ∈ unfinishableSession, request.Emittable) ∧
      transcript unfinishableSession =
        ⟨[("main", [.label "top", .reference .relative "done", .reference .relative "top",
          .reference .relative "missing", .reference .absolute "nowhere", .label "done"])], none⟩ ∧
      (afterRequests unfinishableSession).finish true =
        .error (.undefinedLabel "main" "missing") ∧
      FinishesExactly unfinishableSession true := by
  have emittable : ∀ request ∈ unfinishableSession, request.Emittable := by decide +kernel
  have failed : (match (afterRequests unfinishableSession).finish true with
      | .error error => some error
      | .ok _ => none) = some (.undefinedLabel "main" "missing") := by decide +kernel
  refine ⟨emittable, by decide +kernel, ?_, finishesExactly_of_emittable emittable true⟩
  split at failed
  · rename_i error isError
    rw [isError, Option.some.inj failed]
  · cases failed

end CodeUnit
end ScriptBytecode
