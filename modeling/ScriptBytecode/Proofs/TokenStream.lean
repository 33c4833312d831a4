import ScriptBytecode.Proofs.ArenaFusion
import ScriptBytecode.Proofs.BuildSession
import ScriptBytecode.Proofs.FusionRules

/-!
# Token streams

A session is read as a stream of tokens: the functions that begin and end, the labels, and the
symbolic operations of the statements.  Fusing the instructions of a function does not change its
stream, although it changes the instructions.
-/

namespace ScriptBytecode

/-- A function begins or ends, a label is placed, or an operation is made. -/
inductive Token where
  | beginFunction (name : String)
  | label (name : String)
  | operation (operation : SymbolicOperation)
  | endFunction

/-- The tokens of a call; none if its statement cannot be lifted. -/
def BuildCall.tokens? (natives : Array UInt64) : BuildCall → Option (List Token)
  | .beginFunction name => some [.beginFunction name]
  | .addLabel label => some [.label label]
  | .emit statement => (statement.operations? natives).map (List.map .operation)
  | .endFunction => some [.endFunction]

/-- The tokens of calls. -/
def tokens? (natives : Array UInt64) : List BuildCall → Option (List Token)
  | [] => some []
  | call :: rest => do
    let tokens ← call.tokens? natives
    let others ← tokens? natives rest
    return tokens ++ others

theorem tokens?_append (natives : Array UInt64) (left right : List BuildCall) :
    tokens? natives (left ++ right) =
      (tokens? natives left).bind fun tokens => (tokens? natives right).map (tokens ++ ·) := by
  induction left with
  | nil => simp [tokens?]
  | cons call rest ih =>
      rw [List.cons_append, tokens?, tokens?, ih]
      cases call.tokens? natives with
      | none => rfl
      | some tokens =>
          cases tokens? natives rest with
          | none => rfl
          | some others => cases tokens? natives right <;> simp

/-- The tokens of statements are their operations. -/
theorem tokens?_emits (natives : Array UInt64) (statements : List Statement) :
    tokens? natives (statements.map .emit) =
      ((statements.mapM (Statement.operations? natives)).map List.flatten).map
        (List.map .operation) := by
  induction statements with
  | nil => rfl
  | cons statement rest ih =>
      rw [List.map_cons, tokens?, ih, List.mapM_cons]
      cases here : statement.operations? natives with
      | none => simp [BuildCall.tokens?, here]
      | some operations =>
          cases rest.mapM (Statement.operations? natives) <;> simp [BuildCall.tokens?, here]

/-- The operations of tokens with the function they are in, given the function that is open
before. -/
def operationsIn : (function : String) → List Token → List (String × SymbolicOperation)
  | _, [] => []
  | _, .beginFunction name :: rest => operationsIn name rest
  | function, .operation operation :: rest => (function, operation) :: operationsIn function rest
  | function, .label _ :: rest => operationsIn function rest
  | function, .endFunction :: rest => operationsIn function rest

theorem operationsIn_operations
    (function : String)
    (operations : List SymbolicOperation)
    (tokens : List Token) :
    operationsIn function (operations.map .operation ++ tokens) =
      operations.map (function, ·) ++ operationsIn function tokens := by
  induction operations with
  | nil => rfl
  | cons operation rest ih => simp [operationsIn, ih]

/-! ## Lines of a function -/

/-- A statement with the labels before it. -/
abbrev Line := List String × Statement

namespace Line

/-- The instruction of a line in an arena. -/
def entry (line : Line) : Entry :=
  ⟨line.2.fragment.bytes, line.2.fragment.references, line.1⟩

/-- The calls that place a line. -/
def calls (line : Line) : List BuildCall :=
  line.1.map .addLabel ++ [.emit line.2]

end Line

/-- Lines without further labels are placed like their statements. -/
theorem flatMap_calls_cons (labels : List String) (statement : Statement)
    (statements : List Statement) :
    ((labels, statement) :: statements.map fun other => (([] : List String), other)).flatMap
        Line.calls =
      labels.map .addLabel ++ (statement :: statements).map .emit := by
  have unlabelled : (statements.map fun other => (([] : List String), other)).flatMap Line.calls =
      statements.map .emit := by
    induction statements with
    | nil => rfl
    | cons other rest ih =>
        rw [List.map_cons, List.flatMap_cons, ih]
        rfl
  rw [List.flatMap_cons, unlabelled]
  simp [Line.calls]

/-- Lines whose tokens are those of others. -/
def SameTokens (lines others : List Line) : Prop :=
  ∀ natives, tokens? natives (lines.flatMap Line.calls) =
    tokens? natives (others.flatMap Line.calls)

/-- Statements with the same operations can stand behind the same labels. -/
theorem sameTokens_of_sameOperations
    (before after : List Line)
    (labels : List String)
    {statement other : Statement}
    {statements others : List Statement}
    (same : Statement.SameOperations (statement :: statements) (other :: others)) :
    SameTokens
      (before ++ ((labels, statement) :: statements.map fun other => ([], other)) ++ after)
      (before ++ ((labels, other) :: others.map fun other => ([], other)) ++ after) := by
  intro natives
  simp only [List.flatMap_append, flatMap_calls_cons, tokens?_append, tokens?_emits, same natives]

/-- Two neighbouring instructions are those of two neighbouring lines. -/
theorem exists_lines_of_entries
    {before after : List Entry}
    {first second : Entry}
    {lines : List Line}
    (isEntries : before ++ first :: second :: after = lines.map Line.entry)
    (noLabel : second.labels = []) :
    ∃ linesBefore labels firstStatement secondStatement linesAfter,
      lines = linesBefore ++ (labels, firstStatement) :: ([], secondStatement) :: linesAfter ∧
        before = linesBefore.map Line.entry ∧ first = Line.entry (labels, firstStatement) ∧
        second = Line.entry ([], secondStatement) ∧ after = linesAfter.map Line.entry := by
  obtain ⟨linesBefore, rest, rfl, isBefore, isRest⟩ := List.map_eq_append_iff.mp isEntries.symm
  obtain ⟨⟨labels, firstStatement⟩, others, rfl, isFirst, isOthers⟩ :=
    List.map_eq_cons_iff.mp isRest
  obtain ⟨⟨none, secondStatement⟩, linesAfter, rfl, isSecond, isAfter⟩ :=
    List.map_eq_cons_iff.mp isOthers
  have unlabelled : none = [] := by
    rw [← noLabel, ← isSecond]
    rfl
  subst unlabelled
  exact ⟨linesBefore, labels, firstStatement, secondStatement, linesAfter, rfl, isBefore.symm,
    isFirst.symm, isSecond.symm, isAfter.symm⟩

/-- Lines that fusing makes of others: statements that were there or are ordinary ones.  If the
others have symbolic targets, so do they, and they have the same tokens. -/
structure FusedLines (lines newLines : List Line) : Prop where
  encodable : ∀ line ∈ newLines, line.2.Encodable
  known : ∀ line ∈ newLines, line.2 ∈ lines.map Prod.snd ∨ line.2.Ordinary
  symbolic : (∀ line ∈ lines, line.2.SymbolicTargets) →
    (∀ line ∈ newLines, line.2.SymbolicTargets) ∧ SameTokens newLines lines

namespace FusedLines

theorem refl
    {lines : List Line}
    (encodable : ∀ line ∈ lines, line.2.Encodable) :
    FusedLines lines lines where
  encodable := encodable
  known _ member := .inl (List.mem_map_of_mem member)
  symbolic targets := ⟨targets, fun _ => rfl⟩

theorem trans
    {lines middle newLines : List Line}
    (first : FusedLines lines middle)
    (second : FusedLines middle newLines) :
    FusedLines lines newLines where
  encodable := second.encodable
  known line member := by
    rcases second.known line member with isKnown | ordinary
    · obtain ⟨other, isOther, same⟩ := List.mem_map.mp isKnown
      rw [← same]
      exact first.known other isOther
    · exact .inr ordinary
  symbolic targets := by
    obtain ⟨middleTargets, sameMiddle⟩ := first.symbolic targets
    obtain ⟨newTargets, same⟩ := second.symbolic middleTargets
    exact ⟨newTargets, fun natives => (same natives).trans (sameMiddle natives)⟩

/-- Statements can be replaced behind the labels of the first of them. -/
theorem replace
    (before after : List Line)
    (labels : List String)
    {statement other : Statement}
    {statements others : List Statement}
    (replaces : Statement.Replaces (statement :: statements) (other :: others))
    (encodable : ∀ line ∈ before ++ after, line.2.Encodable) :
    FusedLines
      (before ++ ((labels, other) :: others.map fun other => ([], other)) ++ after)
      (before ++ ((labels, statement) :: statements.map fun other => ([], other)) ++ after) where
  encodable := by
    obtain ⟨here, rest⟩ := List.forall_mem_cons.mp replaces.encodable
    obtain ⟨beforeEncodable, afterEncodable⟩ := List.forall_mem_append.mp encodable
    simp only [List.forall_mem_append, List.forall_mem_cons, List.forall_mem_map]
    exact ⟨⟨beforeEncodable, here, rest⟩, afterEncodable⟩
  known := by
    obtain ⟨here, rest⟩ := List.forall_mem_cons.mp replaces.ordinary
    simp only [List.forall_mem_append, List.forall_mem_cons, List.forall_mem_map]
    refine ⟨⟨fun line member => .inl ?_, .inr here, fun statement member => .inr (rest _ member)⟩,
      fun line member => .inl ?_⟩
    · simp only [List.map_append, List.mem_append]
      exact .inl (.inl (List.mem_map_of_mem member))
    · simp only [List.map_append, List.mem_append]
      exact .inr (List.mem_map_of_mem member)
  symbolic targets := by
    simp only [List.forall_mem_append, List.forall_mem_cons, List.forall_mem_map] at targets ⊢
    obtain ⟨⟨beforeTargets, here, rest⟩, afterTargets⟩ := targets
    obtain ⟨newTargets, same⟩ := replaces.symbolic (List.forall_mem_cons.mpr ⟨here, rest⟩)
    obtain ⟨newHere, newRest⟩ := List.forall_mem_cons.mp newTargets
    exact ⟨⟨⟨beforeTargets, newHere, newRest⟩, afterTargets⟩,
      sameTokens_of_sameOperations before after labels same⟩

end FusedLines

/-- A fusion of two lines makes lines of them. -/
theorem Arena.FusionStep.lines
    {entries others : List Entry}
    (step : FusionStep entries others)
    {lines : List Line}
    (isEntries : entries = lines.map Line.entry)
    (encodable : ∀ line ∈ lines, line.2.Encodable) :
    ∃ newLines, others = newLines.map Line.entry ∧ FusedLines lines newLines := by
  have divided : ∀ {before after : List Line} {labels : List String} {first second : Statement},
      lines = before ++ (labels, first) :: ([], second) :: after →
        first.Encodable ∧ second.Encodable ∧ ∀ line ∈ before ++ after, line.2.Encodable := by
    rintro before after labels first second rfl
    simp only [List.forall_mem_append, List.forall_mem_cons] at encodable ⊢
    exact ⟨encodable.2.1, encodable.2.2.1, encodable.1, encodable.2.2.2⟩
  cases step with
  | intoFirst before after noLabel found =>
      obtain ⟨linesBefore, labels, first, second, linesAfter, isLines, rfl, rfl, rfl, rfl⟩ :=
        exists_lines_of_entries isEntries noLabel
      obtain ⟨firstEncodable, secondEncodable, othersEncodable⟩ := divided isLines
      cases Fusion.find?_sound firstEncodable secondEncodable found with
      | intoFirst fused replaces references =>
          refine ⟨linesBefore ++ (labels, fused) :: linesAfter, ?_, ?_⟩
          · simp [Line.entry, references]
          · simpa [isLines] using FusedLines.replace _ _ labels replaces othersEncodable
  | intoSecond before after noLabel found =>
      obtain ⟨linesBefore, labels, first, second, linesAfter, isLines, rfl, rfl, rfl, rfl⟩ :=
        exists_lines_of_entries isEntries noLabel
      obtain ⟨firstEncodable, secondEncodable, othersEncodable⟩ := divided isLines
      cases Fusion.find?_sound firstEncodable secondEncodable found with
      | intoSecond fused replaces references =>
          refine ⟨linesBefore ++ (labels, fused) :: linesAfter, ?_, ?_⟩
          · simp [Line.entry, references]
          · simpa [isLines] using FusedLines.replace _ _ labels replaces othersEncodable
  | both before after noLabel found =>
      obtain ⟨linesBefore, labels, first, second, linesAfter, isLines, rfl, rfl, rfl, rfl⟩ :=
        exists_lines_of_entries isEntries noLabel
      obtain ⟨firstEncodable, secondEncodable, othersEncodable⟩ := divided isLines
      cases Fusion.find?_sound firstEncodable secondEncodable found with
      | both newFirst newSecond replaces firstReferences secondReferences =>
          refine ⟨linesBefore ++ (labels, newFirst) :: ([], newSecond) :: linesAfter, ?_, ?_⟩
          · simp [Line.entry, firstReferences, secondReferences]
          · simpa [isLines] using FusedLines.replace _ _ labels replaces othersEncodable

/-- Any number of fusions of lines makes lines of them. -/
theorem Arena.FusionSteps.lines
    {entries others : List Entry}
    (steps : FusionSteps entries others)
    {lines : List Line}
    (isEntries : entries = lines.map Line.entry)
    (encodable : ∀ line ∈ lines, line.2.Encodable) :
    ∃ newLines, others = newLines.map Line.entry ∧ FusedLines lines newLines := by
  induction steps with
  | refl => exact ⟨lines, isEntries, .refl encodable⟩
  | tail _ step ih =>
      obtain ⟨middle, isMiddle, fusedMiddle⟩ := ih
      obtain ⟨newLines, isNew, fused⟩ := step.lines isMiddle fusedMiddle.encodable
      exact ⟨newLines, isNew, fusedMiddle.trans fused⟩

end ScriptBytecode
