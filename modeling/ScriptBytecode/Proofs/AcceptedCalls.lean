import ScriptBytecode.Proofs.FailedUnitCalls
import ScriptBytecode.Proofs.FunctionLayout

/-!
# What accepted calls write

The calls of a session that succeed tell by themselves which functions are written, which labels
each of them places and which names it refers to, in which order.  This transcript of a session
knows nothing of arenas.  The functions of the unit mention the same names in the same order.
-/

namespace ScriptBytecode

/-! ## Mentioned names -/

/-- A label that a function places, or a name that it refers to. -/
inductive Mention where
  | label (name : String)
  | reference (kind : ReferenceKind) (target : String)
deriving DecidableEq, Repr

namespace Mention

/-- The name of a label that is placed. -/
def label? : Mention → Option String
  | .label name => some name
  | .reference _ _ => none

/-- What is referred to, and how. -/
def target? : Mention → Option (ReferenceKind × String)
  | .label _ => none
  | .reference kind target => some (kind, target)

end Mention

/-- What a statement refers to, in the order of its operands. -/
def Statement.mentions : Statement → List Mention
  | .plain _ _ => []
  | .jump _ label => [.reference .relative label]
  | .call function => [.reference .absolute function]
  | .switch cases => cases.map fun (_, label) => .reference .relative label

/-- The labels of an instruction, and what it refers to. -/
def Entry.mentions (entry : Entry) : List Mention :=
  entry.labels.map .label ++
    entry.references.map fun reference => .reference reference.kind reference.target

/-- What the instructions of a function mention in order, and the labels behind them. -/
def FunctionCode.mentions (function : FunctionCode) : List Mention :=
  function.entries.flatMap Entry.mentions ++ function.arena.trailing.map .label

/-- What the lines of a function mention in order, and the labels behind them. -/
def FunctionLines.mentions (function : FunctionLines) : List Mention :=
  function.lines.flatMap (fun line => line.1.map .label ++ line.2.mentions) ++
    function.trailing.map .label

theorem Statement.map_references_fragment (statement : Statement) :
    (statement.fragment.references.map fun reference =>
      Mention.reference reference.kind reference.target) = statement.mentions := by
  cases statement with
  | plain opcode operands => rfl
  | jump opcode label => rfl
  | call function => rfl
  | switch cases =>
      apply List.ext_getElem
      · simp [fragment, mentions]
      · intro index _ _
        simp [fragment, mentions, caseReference]

theorem Line.mentions_entry (line : Line) :
    line.entry.mentions = line.1.map .label ++ line.2.mentions := by
  rw [Entry.mentions, ← line.2.map_references_fragment]
  rfl

namespace FunctionCode

theorem Follows.mentions_eq
    {function : FunctionCode} {lines : FunctionLines}
    (follows : function.Follows lines) :
    function.mentions = lines.mentions := by
  rw [mentions, follows.entries_eq, List.flatMap_map, follows.trailing]
  simp only [Line.mentions_entry]
  rfl

/-- The labels of a function are those that it mentions. -/
theorem labels_eq_filterMap (function : FunctionCode) :
    function.labels = function.mentions.filterMap Mention.label? := by
  have here : ∀ entry : Entry, entry.mentions.filterMap Mention.label? = entry.labels := by
    intro entry
    simp [Entry.mentions, List.filterMap_append, List.filterMap_map, Function.comp_def,
      Mention.label?]
  simp [labels, mentions, List.filterMap_append, List.filterMap_flatMap, here, List.filterMap_map,
    Function.comp_def, Mention.label?]

/-- The targets of a function are those that it mentions. -/
theorem targets_eq_filterMap (function : FunctionCode) :
    function.targets = function.mentions.filterMap Mention.target? := by
  have here : ∀ entry : Entry, entry.mentions.filterMap Mention.target? = entry.targets := by
    intro entry
    simp [Entry.mentions, Entry.targets, List.filterMap_append, List.filterMap_map,
      Function.comp_def, Mention.target?]
  simp [targets, mentions, List.filterMap_append, List.filterMap_flatMap, here, List.filterMap_map,
    Function.comp_def, Mention.target?]

/-- The labels of functions that are placed are those that they mention. -/
theorem map_labels_symbolsFrom (size : Nat) (functions : List FunctionCode) :
    (symbolsFrom size functions).map (fun symbols => (symbols.name, symbols.labels.map Prod.fst)) =
      (functions.map fun function => (function.name, function.mentions)).map fun function =>
        (function.1, function.2.filterMap Mention.label?) := by
  rw [map_symbolsFrom, List.map_map]
  simp only [labels_eq_filterMap]
  rfl

/-- The references of functions that are placed are those that they mention. -/
theorem map_targets_fixupsFrom (size : Nat) (functions : List FunctionCode) :
    (fixupsFrom size functions).map (fun fixup => (fixup.function, fixup.kind, fixup.target)) =
      (functions.map fun function => (function.name, function.mentions)).flatMap fun function =>
        (function.2.filterMap Mention.target?).map (function.1, ·) := by
  rw [map_fixupsFrom, List.flatMap_map]
  simp only [targets_eq_filterMap]

end FunctionCode

/-! ## Transcripts -/

/-- The functions that accepted calls have written, each with its name and what it mentions. -/
structure Transcript where
  finished : List (String × List Mention) := []
  current : Option (String × List Mention) := none
deriving DecidableEq, Repr

namespace Transcript

/-- Adds to what the open function mentions. -/
def mention (transcript : Transcript) (mentions : List Mention) : Transcript :=
  { transcript with
    current := transcript.current.map fun (name, earlier) => (name, earlier ++ mentions) }

/-- Takes down a request that was accepted. -/
def note (transcript : Transcript) : UnitRequest → Transcript
  | .unitCall (.beginFunction name) => { transcript with current := some (name, []) }
  | .unitCall (.label name) => transcript.mention [.label name]
  | .unitCall (.emit statement) => transcript.mention statement.mentions
  | .unitCall (.native _ _ _) => transcript
  | .unitCall .endFunction => ⟨transcript.finished ++ transcript.current.toList, none⟩
  | .nativeIndex _ => transcript

theorem mention_nil (transcript : Transcript) : transcript.mention [] = transcript := by
  obtain ⟨finished, current⟩ := transcript
  cases current <;> simp [mention]

end Transcript

namespace CodeUnit

/-- The requests that succeed when requests are made in a state, going on after those that fail. -/
def accepted : (codeUnit : CodeUnit) → List UnitRequest → List UnitRequest
  | _, [] => []
  | codeUnit, request :: rest =>
    match request.run codeUnit with
    | .ok _ next => request :: accepted next rest
    | .error _ next => accepted next rest

/-- The transcript of a session. -/
def transcript (requests : List UnitRequest) : Transcript :=
  (accepted {} requests).foldl Transcript.note {}

/-- A unit whose functions mention what a transcript has. -/
structure Transcribes (codeUnit : CodeUnit) (transcript : Transcript) : Prop where
  finished : codeUnit.finished.toList.map (fun function => (function.name, function.mentions)) =
    transcript.finished
  outside : codeUnit.current = none → transcript.current = none
  inside : ∀ function, codeUnit.current = some function → ∃ lines pending,
    function.arena.Holds lines pending ∧
      transcript.current =
        some (function.name, FunctionLines.mentions ⟨function.name, lines, pending⟩)

namespace Transcribes

variable {codeUnit next : CodeUnit} {transcript : Transcript} {function : FunctionCode}

theorem empty : Transcribes {} {} :=
  ⟨rfl, fun _ => rfl, by rintro _ ⟨⟩⟩

variable (transcribes : codeUnit.Transcribes transcript)

include transcribes

/-- Natives are not mentioned. -/
theorem withNative (hash : UInt64) :
    (codeUnit.withNative hash).Transcribes transcript :=
  ⟨transcribes.finished, transcribes.outside, transcribes.inside⟩

/-- The open function mentions more when its arena does. -/
theorem mention
    (isOpen : codeUnit.current = some function)
    {arena : Arena} {mentions : List Mention}
    (more : ∀ lines pending, function.arena.Holds lines pending → ∃ newLines newPending,
      arena.Holds newLines newPending ∧
        FunctionLines.mentions ⟨function.name, newLines, newPending⟩ =
          FunctionLines.mentions ⟨function.name, lines, pending⟩ ++ mentions) :
    (codeUnit.opened function.name arena).Transcribes (transcript.mention mentions) := by
  obtain ⟨lines, pending, holds, isCurrent⟩ := transcribes.inside function isOpen
  obtain ⟨newLines, newPending, newHolds, isMore⟩ := more lines pending holds
  refine ⟨transcribes.finished, by rintro ⟨⟩, ?_⟩
  rintro _ ⟨⟩
  refine ⟨newLines, newPending, newHolds, ?_⟩
  rw [Transcript.mention, isCurrent, isMore]
  rfl

theorem beginFunction
    (name : String) :
    (codeUnit.opened name {}).Transcribes (transcript.note (.unitCall (.beginFunction name))) := by
  refine ⟨transcribes.finished, by rintro ⟨⟩, ?_⟩
  rintro _ ⟨⟩
  exact ⟨[], [], .empty, rfl⟩

theorem label
    (isOpen : codeUnit.current = some function)
    (name : String) :
    (codeUnit.opened function.name (function.arena.addLabel name)).Transcribes
      (transcript.note (.unitCall (.label name))) := by
  refine transcribes.mention isOpen fun lines pending holds => ?_
  exact ⟨lines, pending ++ [name], holds.addLabel name, by simp [FunctionLines.mentions]⟩

/-- The labels that still wait come to stand behind the function. -/
theorem endFunction
    (isOpen : codeUnit.current = some function) :
    Transcribes
      { codeUnit with
        finished := codeUnit.finished.push ⟨function.name, function.arena.close⟩
        current := none }
      (transcript.note (.unitCall .endFunction)) := by
  obtain ⟨lines, pending, holds, isCurrent⟩ := transcribes.inside function isOpen
  have mentions := (holds.follows_close function.name).mentions_eq
  refine ⟨?_, fun _ => rfl, by rintro _ ⟨⟩⟩
  rw [Array.toList_push, List.map_append, transcribes.finished, List.map_singleton, mentions,
    Transcript.note, isCurrent]
  rfl

theorem nativeIndex
    {hash : UInt64} {index : UInt16}
    (answered : CodeUnit.nativeIndex hash codeUnit = .ok index next) :
    next.Transcribes transcript := by
  rcases codeUnit.nativeIndex_outcomes hash with ⟨_, -, found⟩ | ⟨-, -, added⟩ | ⟨-, -, refused⟩
  · cases found.symm.trans answered
    exact transcribes
  · cases added.symm.trans answered
    exact transcribes.withNative hash
  · cases refused.symm.trans answered

theorem emitted
    {statement : Statement} {handle : Handle}
    (emitted : CodeUnit.emit statement codeUnit = .ok handle next) :
    next.Transcribes (transcript.mention statement.mentions) := by
  rcases codeUnit.emit_outcomes statement with
    ⟨-, failed⟩ | ⟨-, failed⟩ | ⟨function, _, isOpen, -, pushed⟩
  · cases failed.symm.trans emitted
  · cases failed.symm.trans emitted
  · cases pushed.symm.trans emitted
    refine transcribes.mention isOpen fun lines pending holds => ?_
    exact ⟨_, [], holds.push statement, by simp [FunctionLines.mentions]⟩

/-- A request that is accepted does to the unit what is taken down of it. -/
theorem accept
    {request : UnitRequest}
    (ran : request.run codeUnit = .ok () next) :
    next.Transcribes (transcript.note request) := by
  cases request with
  | nativeIndex hash =>
      obtain ⟨index, answered⟩ := ignore_eq_ok_iff.mp ran
      exact transcribes.nativeIndex answered
  | unitCall call =>
      cases call with
      | beginFunction name =>
          rcases codeUnit.beginFunction_outcomes name with ⟨_, failed⟩ | ⟨-, -, began⟩
          · cases failed.symm.trans ran
          · cases began.symm.trans ran
            exact transcribes.beginFunction name
      | label name =>
          rcases codeUnit.label_outcomes name with ⟨_, failed⟩ | ⟨function, isOpen, -, -, placed⟩
          · cases failed.symm.trans ran
          · cases placed.symm.trans ran
            exact transcribes.label isOpen name
      | emit statement =>
          obtain ⟨handle, emitted⟩ := ignore_eq_ok_iff.mp ran
          exact transcribes.emitted emitted
      | native parameters returns hash =>
          obtain ⟨handle, called⟩ := ignore_eq_ok_iff.mp ran
          obtain ⟨index, middle, answered, emitted⟩ := exists_of_native called
          have noted := (transcribes.nativeIndex answered).emitted emitted
          rwa [Statement.native, Statement.mentions, Transcript.mention_nil] at noted
      | endFunction =>
          rcases codeUnit.endFunction_outcomes with ⟨_, failed⟩ | ⟨function, isOpen, ended⟩
          · cases failed.symm.trans ran
          · cases ended.symm.trans ran
            exact transcribes.endFunction isOpen

/-- A request that fails does nothing that would be mentioned. -/
theorem refuse
    (indexed : codeUnit.Indexed)
    {request : UnitRequest} {error : Error}
    (failed : request.run codeUnit = .error error next) :
    next.Transcribes transcript := by
  rcases request_failed indexed failed with ⟨-, rfl⟩ | ⟨hash, -, -, rfl⟩
  · exact transcribes
  · exact transcribes.withNative hash

end Transcribes

/-- The unit that a session leaves mentions what its accepted requests mention. -/
theorem transcribes_afterRequests (requests : List UnitRequest) :
    (afterRequests requests).Transcribes (transcript requests) := by
  have general : ∀ (codeUnit : CodeUnit) (earlier : Transcript), codeUnit.Transcribes earlier →
      codeUnit.Indexed →
      (requests.foldl (fun codeUnit request => stateAfter (request.run codeUnit))
        codeUnit).Transcribes ((codeUnit.accepted requests).foldl Transcript.note earlier) := by
    induction requests with
    | nil => exact fun _ _ transcribes _ => transcribes
    | cons request rest ih =>
        intro codeUnit earlier transcribes indexed
        have nextIndexed := indexed.step request
        rw [List.foldl_cons, accepted]
        cases ran : request.run codeUnit with
        | ok answer next =>
            rw [ran] at nextIndexed
            exact ih next _ (transcribes.accept ran) nextIndexed
        | error error next =>
            rw [ran] at nextIndexed
            exact ih next _ (transcribes.refuse indexed ran) nextIndexed
  exact general {} {} .empty indexed_empty

end CodeUnit
end ScriptBytecode
