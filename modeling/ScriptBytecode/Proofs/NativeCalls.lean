import ScriptBytecode.Proofs.FailedUnitCalls
import ScriptBytecode.Proofs.LiftedNatives

/-!
# Native calls of a session

A session of a code unit may look up natives, call them and fail at any moment.  The table of
natives only grows, so an index keeps its hash.  The calls of natives that succeeded are found again
in the lifted code, in order and with their hashes, fused or not.
-/

namespace ScriptBytecode

open Builder

/-! ## The statements of functions -/

/-- Functions that were written with the given statements, in order. -/
def HaveStatements (functions : List FunctionCode) (statements : List Statement) : Prop :=
  ∃ lines : List (List Line), List.Forall₂ FunctionCode.HasLines functions lines ∧
    (∀ line ∈ lines.flatten, line.2.Encodable) ∧ lines.flatten.map Prod.snd = statements

namespace HaveStatements

variable {functions others : List FunctionCode} {statements further : List Statement}
  {function : FunctionCode}

theorem nil : HaveStatements [] [] :=
  ⟨[], .nil, by simp, rfl⟩

theorem eq_nil (written : HaveStatements [] statements) : statements = [] := by
  obtain ⟨_, allHaveLines, -, rfl⟩ := written
  cases allHaveLines
  rfl

theorem singleton_iff :
    HaveStatements [function] statements ↔
      ∃ lines, function.HasLines lines ∧ (∀ line ∈ lines, line.2.Encodable) ∧
        lines.map Prod.snd = statements := by
  constructor
  · rintro ⟨_, allHaveLines, encodable, rfl⟩
    cases allHaveLines with
    | cons hasLines others =>
        cases others
        exact ⟨_, hasLines, by simpa using encodable, by simp⟩
  · rintro ⟨lines, hasLines, encodable, rfl⟩
    exact ⟨[lines], .cons hasLines .nil, by simpa using encodable, by simp⟩

theorem append
    (first : HaveStatements functions statements)
    (second : HaveStatements others further) :
    HaveStatements (functions ++ others) (statements ++ further) := by
  obtain ⟨lines, hasLines, encodable, rfl⟩ := first
  obtain ⟨moreLines, moreHasLines, moreEncodable, rfl⟩ := second
  refine ⟨lines ++ moreLines, List.rel_append hasLines moreHasLines, ?_, by simp⟩
  rw [List.flatten_append]
  exact List.forall_mem_append.mpr ⟨encodable, moreEncodable⟩

/-- Functions with given statements are placed by calls with these statements. -/
theorem exists_places (written : HaveStatements functions statements) :
    ∃ calls, Places functions calls ∧ calls.filterMap BuildCall.statement? = statements := by
  obtain ⟨lines, hasLines, encodable, rfl⟩ := written
  induction hasLines with
  | nil => exact ⟨[], .nil, rfl⟩
  | cons here _ ih =>
      rw [List.flatten_cons, List.forall_mem_append] at encodable
      obtain ⟨calls, places, same⟩ := ih encodable.2
      refine ⟨_, .cons here encodable.1 places, ?_⟩
      rw [List.filterMap_append, filterMap_statement?_functionCalls, same, List.flatten_cons,
        List.map_append]

end HaveStatements

namespace CodeUnit

/-- A code unit whose functions, the open one last, were written with the given statements. -/
def Wrote (codeUnit : CodeUnit) (statements : List Statement) : Prop :=
  ∃ earlier latest, HaveStatements codeUnit.finished.toList earlier ∧
    HaveStatements codeUnit.current.toList latest ∧ earlier ++ latest = statements

namespace Wrote

variable {codeUnit : CodeUnit} {statements : List Statement}

theorem empty : Wrote {} [] :=
  ⟨[], [], .nil, .nil, rfl⟩

/-- The statements of the open function come last. -/
theorem exists_lines
    (wrote : codeUnit.Wrote statements)
    {function : FunctionCode}
    (isOpen : codeUnit.current = some function) :
    ∃ earlier lines, HaveStatements codeUnit.finished.toList earlier ∧ function.HasLines lines ∧
      (∀ line ∈ lines, line.2.Encodable) ∧ earlier ++ lines.map Prod.snd = statements := by
  obtain ⟨earlier, latest, writtenEarlier, writtenLatest, rfl⟩ := wrote
  rw [isOpen] at writtenLatest
  obtain ⟨lines, hasLines, encodable, rfl⟩ := HaveStatements.singleton_iff.mp writtenLatest
  exact ⟨earlier, lines, writtenEarlier, hasLines, encodable, rfl⟩

theorem opened
    {earlier : List Statement}
    (written : HaveStatements codeUnit.finished.toList earlier)
    {name : String} {arena : Arena} {lines : List Line}
    (hasLines : FunctionCode.HasLines ⟨name, arena⟩ lines)
    (encodable : ∀ line ∈ lines, line.2.Encodable) :
    (codeUnit.opened name arena).Wrote (earlier ++ lines.map Prod.snd) :=
  ⟨earlier, _, written, HaveStatements.singleton_iff.mpr ⟨lines, hasLines, encodable, rfl⟩, rfl⟩

theorem beginFunction (wrote : codeUnit.Wrote statements) (name : String) :
    (stateAfter (CodeUnit.beginFunction name codeUnit)).Wrote statements := by
  rcases codeUnit.beginFunction_outcomes name with ⟨_, failed⟩ | ⟨outside, -, began⟩
  · rwa [failed]
  · obtain ⟨earlier, latest, writtenEarlier, writtenLatest, rfl⟩ := wrote
    rw [outside] at writtenLatest
    obtain rfl := writtenLatest.eq_nil
    rw [began]
    exact opened writtenEarlier (.empty name) (by simp)

theorem label (wrote : codeUnit.Wrote statements) (name : String) :
    (stateAfter (CodeUnit.label name codeUnit)).Wrote statements := by
  rcases codeUnit.label_outcomes name with ⟨_, failed⟩ | ⟨function, isOpen, -, -, placed⟩
  · rwa [failed]
  · obtain ⟨earlier, lines, written, hasLines, encodable, rfl⟩ := wrote.exists_lines isOpen
    rw [placed]
    exact opened written (hasLines.addLabel name) encodable

theorem endFunction (wrote : codeUnit.Wrote statements) :
    (stateAfter (CodeUnit.endFunction codeUnit)).Wrote statements := by
  rcases codeUnit.endFunction_outcomes with ⟨_, failed⟩ | ⟨function, isOpen, ended⟩
  · rwa [failed]
  · obtain ⟨earlier, lines, written, hasLines, encodable, rfl⟩ := wrote.exists_lines isOpen
    have closed := HaveStatements.singleton_iff.mpr ⟨lines, hasLines.close, encodable, rfl⟩
    rw [ended]
    refine ⟨earlier ++ lines.map Prod.snd, [], ?_, .nil, List.append_nil _⟩
    rw [stateAfter, Array.toList_push]
    exact written.append closed

/-- A statement that is emitted is written last, or nothing changes. -/
theorem emit
    (wrote : codeUnit.Wrote statements)
    {statement : Statement}
    (emittable : statement.Emittable) :
    (∃ error, CodeUnit.emit statement codeUnit = .error error codeUnit) ∨
      ∃ handle next, CodeUnit.emit statement codeUnit = .ok handle next ∧
        next.natives = codeUnit.natives ∧ next.Wrote (statements ++ [statement]) ∧
        statement.Encodable := by
  rcases codeUnit.emit_outcomes statement with
    ⟨-, failed⟩ | ⟨-, failed⟩ | ⟨function, handle, isOpen, fewCases, emitted⟩
  · exact .inl ⟨_, failed⟩
  · exact .inl ⟨_, failed⟩
  · obtain ⟨earlier, lines, written, hasLines, encodable, rfl⟩ := wrote.exists_lines isOpen
    have isEncodable : statement.Encodable := ⟨emittable, fewCases⟩
    have wrote := opened written (hasLines.push statement)
      (List.forall_mem_append.mpr ⟨encodable, List.forall_mem_singleton.mpr isEncodable⟩)
    rw [List.map_append, ← List.append_assoc] at wrote
    exact .inr ⟨handle, _, emitted, rfl, wrote, isEncodable⟩

end Wrote

/-! ## Tables that grow -/

/-- Every index of a table of natives has the same hash in another table. -/
def KeepsHashes (natives others : Array UInt64) : Prop :=
  ∀ (index : Nat) (hash : UInt64), natives[index]? = some hash → others[index]? = some hash

namespace KeepsHashes

theorem refl (natives : Array UInt64) : KeepsHashes natives natives :=
  fun _ _ found => found

theorem trans
    {natives middle others : Array UInt64}
    (first : KeepsHashes natives middle)
    (second : KeepsHashes middle others) :
    KeepsHashes natives others :=
  fun index hash found => second index hash (first index hash found)

theorem push (natives : Array UInt64) (hash : UInt64) :
    KeepsHashes natives (natives.push hash) := by
  intro index other found
  obtain ⟨inBounds, isHash⟩ := Array.getElem?_eq_some_iff.mp found
  rw [Array.getElem?_push_lt inBounds, isHash]

theorem change
    {allowed : Statement → Prop} {codeUnit next : CodeUnit}
    (change : Change allowed codeUnit next) :
    KeepsHashes codeUnit.natives next.natives := by
  cases change with
  | addNative hash => exact .push _ hash
  | beginFunction => exact .refl _
  | label => exact .refl _
  | emit => exact .refl _
  | endFunction => exact .refl _

/-- A request keeps the hashes of the table. -/
theorem step (codeUnit : CodeUnit) (request : UnitRequest) :
    KeepsHashes codeUnit.natives (stateAfter (request.run codeUnit)).natives := by
  have kept : ∀ {middle next : CodeUnit}, KeepsHashes codeUnit.natives middle.natives →
      Change (fun _ => True) middle next → KeepsHashes codeUnit.natives next.natives :=
    fun keeps changed => keeps.trans (change changed)
  exact (request.changes codeUnit).keep kept (refl _)

end KeepsHashes

/-- The state that requests leave after a state. -/
def resume (codeUnit : CodeUnit) (requests : List UnitRequest) : CodeUnit :=
  requests.foldl (fun codeUnit request => stateAfter (request.run codeUnit)) codeUnit

theorem afterRequests_append (history future : List UnitRequest) :
    afterRequests (history ++ future) = (afterRequests history).resume future :=
  List.foldl_append

theorem keepsHashes_resume (codeUnit : CodeUnit) (requests : List UnitRequest) :
    KeepsHashes codeUnit.natives (codeUnit.resume requests).natives := by
  induction requests generalizing codeUnit with
  | nil => exact .refl _
  | cons request rest ih =>
      exact (KeepsHashes.step codeUnit request).trans (ih _)

/-! ## Calls in written code -/

/-- A code unit whose statements are lifted to the given native calls, with any table that keeps the
hashes of its own. -/
def CallsNatives (codeUnit : CodeUnit) (calls : List Operation) : Prop :=
  ∃ statements, codeUnit.Wrote statements ∧
    ∀ natives, KeepsHashes codeUnit.natives natives →
      statements.flatMap (Statement.nativeCalls natives) = calls

namespace CallsNatives

variable {codeUnit next : CodeUnit} {calls more : List Operation}

theorem empty : CallsNatives {} [] :=
  ⟨[], .empty, fun _ _ => rfl⟩

theorem of_wrote
    (callsNatives : codeUnit.CallsNatives calls)
    (wrote : ∀ statements, codeUnit.Wrote statements → next.Wrote statements)
    (keeps : KeepsHashes codeUnit.natives next.natives) :
    next.CallsNatives calls := by
  obtain ⟨statements, written, lifted⟩ := callsNatives
  exact ⟨statements, wrote statements written,
    fun natives kept => lifted natives (keeps.trans kept)⟩

/-- A statement that is emitted adds its native calls. -/
theorem emit
    (callsNatives : codeUnit.CallsNatives calls)
    {statement : Statement}
    (emittable : statement.Emittable)
    (isMore : statement.Encodable → ∀ natives, KeepsHashes codeUnit.natives natives →
      statement.nativeCalls natives = more) :
    (∃ error, CodeUnit.emit statement codeUnit = .error error codeUnit) ∨
      ∃ handle next, CodeUnit.emit statement codeUnit = .ok handle next ∧
        next.CallsNatives (calls ++ more) := by
  obtain ⟨statements, wrote, lifted⟩ := callsNatives
  rcases wrote.emit emittable with failed | ⟨handle, next, emitted, same, written, encodable⟩
  · exact .inl failed
  · refine .inr ⟨handle, next, emitted, _, written, fun natives kept => ?_⟩
    rw [same] at kept
    rw [List.flatMap_append, lifted natives kept, List.flatMap_singleton,
      isMore encodable natives kept]

end CallsNatives

/-- Looking up a native fails without a change, or answers its place in a table that keeps the
hashes. -/
theorem nativeIndex_keeps
    {codeUnit : CodeUnit}
    (indexed : codeUnit.Indexed)
    (hash : UInt64) :
    (∃ error, nativeIndex hash codeUnit = .error error codeUnit) ∨
      ∃ index next, nativeIndex hash codeUnit = .ok index next ∧
        next.natives[index.toNat]? = some hash ∧ KeepsHashes codeUnit.natives next.natives ∧
        ∀ statements, codeUnit.Wrote statements → next.Wrote statements := by
  rcases nativeIndex_cases indexed hash with
    ⟨index, found, -⟩ | ⟨index, added, -, -⟩ | ⟨refused, -⟩
  · exact .inr ⟨index, _, found, indexed.getElem?_natives found, .refl _, fun _ wrote => wrote⟩
  · exact .inr ⟨index, _, added, indexed.getElem?_natives added, .push _ _, fun _ wrote => wrote⟩
  · exact .inl ⟨_, refused⟩

end CodeUnit

/-! ## Sessions -/

namespace UnitRequest

/-- A request that does not emit the call of a native by its index. -/
def NoRawNative : UnitRequest → Prop
  | .unitCall (.emit statement) => statement.opcode ≠ .native
  | _ => True

instance (request : UnitRequest) : Decidable request.NoRawNative :=
  match request with
  | .unitCall (.emit statement) => inferInstanceAs (Decidable (statement.opcode ≠ .native))
  | .unitCall (.beginFunction _) | .unitCall (.label _) | .unitCall (.native _ _ _)
  | .unitCall .endFunction | .nativeIndex _ => .isTrue trivial

/-- The call of a native that a request makes in a state, if it succeeds. -/
def nativeCall? (codeUnit : CodeUnit) (request : UnitRequest) : Option Operation :=
  match request, request.run codeUnit with
  | .unitCall (.native parameters returns hash), .ok _ _ =>
    some (.nativeCall (parameters % 64) (returns % 4) hash)
  | _, _ => none

theorem nativeCall?_of_failed
    {codeUnit next : CodeUnit} {request : UnitRequest} {error : Error}
    (failed : request.run codeUnit = .error error next) :
    request.nativeCall? codeUnit = none := by
  unfold nativeCall?
  split
  · rename_i succeeded
    rw [failed] at succeeded
    cases succeeded
  · rfl

theorem nativeCall?_native
    {codeUnit next : CodeUnit} {parameters returns : UInt8} {hash : UInt64}
    (succeeded : (unitCall (.native parameters returns hash)).run codeUnit = .ok () next) :
    (unitCall (.native parameters returns hash)).nativeCall? codeUnit =
      some (.nativeCall (parameters % 64) (returns % 4) hash) := by
  simp only [nativeCall?, succeeded]

end UnitRequest

namespace CodeUnit

variable {codeUnit : CodeUnit} {calls : List Operation}

/-- The calls of natives that succeed when requests are made in a state, in order. -/
def nativeCalls (codeUnit : CodeUnit) : List UnitRequest → List Operation
  | [] => []
  | request :: rest =>
    (request.nativeCall? codeUnit).toList ++ nativeCalls (stateAfter (request.run codeUnit)) rest

section Native

variable {codeUnit next : CodeUnit} (parameters returns : UInt8) {hash : UInt64}

/-- The call of a native is emitted after its index is looked up. -/
theorem run_native
    {index : UInt16}
    (answered : nativeIndex hash codeUnit = .ok index next) :
    (UnitRequest.unitCall (.native parameters returns hash)).run codeUnit =
      match CodeUnit.emit (.native parameters returns index) next with
      | .ok _ last => .ok () last
      | .error error last => .error error last := by
  simp only [UnitRequest.run, UnitCall.run, native, bind, EStateM.bind, answered]
  cases CodeUnit.emit (.native parameters returns index) next <;> rfl

theorem run_native_of_failed
    {error : Error}
    (failed : nativeIndex hash codeUnit = .error error next) :
    (UnitRequest.unitCall (.native parameters returns hash)).run codeUnit = .error error next := by
  simp only [UnitRequest.run, UnitCall.run, native, bind, EStateM.bind, failed]

end Native

variable (callsNatives : codeUnit.CallsNatives calls)

include callsNatives

/-- A request adds the native call that it makes. -/
theorem CallsNatives.step
    (indexed : codeUnit.Indexed)
    {request : UnitRequest}
    (emittable : request.Emittable)
    (noRawNative : request.NoRawNative) :
    (stateAfter (request.run codeUnit)).CallsNatives
      (calls ++ (request.nativeCall? codeUnit).toList) := by
  have keeps := KeepsHashes.step codeUnit request
  have unchanged : request.nativeCall? codeUnit = none →
      (∀ statements, codeUnit.Wrote statements →
        (stateAfter (request.run codeUnit)).Wrote statements) →
      (stateAfter (request.run codeUnit)).CallsNatives
        (calls ++ (request.nativeCall? codeUnit).toList) := by
    intro noCall wrote
    rw [noCall, Option.toList_none, List.append_nil]
    exact callsNatives.of_wrote wrote keeps
  cases request with
  | nativeIndex hash =>
      refine unchanged rfl fun statements wrote => ?_
      rw [UnitRequest.run, stateAfter_ignore]
      rcases nativeIndex_keeps indexed hash with ⟨error, failed⟩ | ⟨_, _, answered, -, -, written⟩
      · rwa [failed]
      · rw [answered]
        exact written statements wrote
  | unitCall call =>
      cases call with
      | beginFunction name => exact unchanged rfl fun _ wrote => wrote.beginFunction name
      | label name => exact unchanged rfl fun _ wrote => wrote.label name
      | endFunction => exact unchanged rfl fun _ wrote => wrote.endFunction
      | emit statement =>
          rw [UnitRequest.run, UnitCall.run, stateAfter_ignore]
          rcases callsNatives.emit emittable fun encodable natives _ =>
              Statement.nativeCalls_eq_nil encodable noRawNative natives with
            ⟨error, failed⟩ | ⟨handle, next, emitted, nextCalls⟩
          · rw [failed]
            exact (List.append_nil calls).symm ▸ callsNatives
          · rw [emitted]
            exact nextCalls
      | native parameters returns hash =>
          rcases nativeIndex_keeps indexed hash with
            ⟨error, failed⟩ | ⟨index, next, answered, found, kept, written⟩
          · have run := run_native_of_failed parameters returns failed
            rw [UnitRequest.nativeCall?_of_failed run, run]
            exact (List.append_nil calls).symm ▸ callsNatives
          · have looked := callsNatives.of_wrote written kept
            have run := run_native parameters returns answered
            rcases looked.emit (Statement.native_emittable parameters returns index)
                fun _ natives keptHere =>
                  Statement.nativeCalls_native (keptHere _ _ found) parameters returns with
              ⟨error, failed⟩ | ⟨handle, last, emitted, lastCalls⟩
            · rw [failed] at run
              rw [UnitRequest.nativeCall?_of_failed run, run]
              exact (List.append_nil calls).symm ▸ looked
            · rw [emitted] at run
              rw [UnitRequest.nativeCall?_native run, run]
              exact lastCalls

/-- A session adds the native calls that it makes. -/
theorem CallsNatives.resume
    (indexed : codeUnit.Indexed)
    {requests : List UnitRequest}
    (emittable : ∀ request ∈ requests, request.Emittable)
    (noRawNative : ∀ request ∈ requests, request.NoRawNative) :
    (codeUnit.resume requests).CallsNatives (calls ++ codeUnit.nativeCalls requests) := by
  induction requests generalizing codeUnit calls with
  | nil => exact (List.append_nil calls).symm ▸ callsNatives
  | cons request rest ih =>
      obtain ⟨emittableHere, emittableLater⟩ := List.forall_mem_cons.mp emittable
      obtain ⟨here, others⟩ := List.forall_mem_cons.mp noRawNative
      rw [nativeCalls, ← List.append_assoc]
      exact ih (callsNatives.step indexed emittableHere here)
        (indexed.step request) emittableLater others

/-! ## Finished code -/

/-- The functions that are placed have the native calls of the unit, fused or not. -/
theorem CallsNatives.exists_places
    (isClosed : codeUnit.current = none)
    (fuse : Bool) :
    ∃ places, Places (codeUnit.placedFunctions fuse) places ∧
      (places.filterMap BuildCall.statement?).flatMap
        (Statement.nativeCalls codeUnit.natives) = calls := by
  obtain ⟨_, ⟨statements, latest, written, noLatest, rfl⟩, lifted⟩ := callsNatives
  rw [isClosed] at noLatest
  obtain rfl := noLatest.eq_nil
  have areCalls := lifted codeUnit.natives (.refl _)
  rw [List.append_nil] at areCalls
  obtain ⟨plain, places, rfl⟩ := written.exists_places
  cases fuse with
  | false => exact ⟨plain, places, areCalls⟩
  | true =>
      obtain ⟨fused, fusedPlaces, sameItems⟩ := places.exists_fuse
      have isPlaced : codeUnit.placedFunctions true =
          codeUnit.finished.toList.map fuseFunction :=
        Array.toList_map
      refine ⟨fused, isPlaced ▸ fusedPlaces, ?_⟩
      rw [← areCalls, Statement.flatMap_nativeCalls, sameItems, Statement.flatMap_nativeCalls]

/-- Finished code calls the natives of the unit. -/
theorem CallsNatives.nativeCalls_of_lift
    {fuse : Bool} {code : UnitCode}
    (isFinished : codeUnit.finish fuse = .ok code)
    {lifted : Array LiftedOperation}
    (isLifted : lift code.pages.flatten code.natives = .ok lifted) :
    lifted.toList.filterMap (fun operation => operation.operation.nativeCall?) = calls := by
  have isClosed : codeUnit.current = none := by
    unfold finish at isFinished
    split at isFinished
    · cases isFinished
    · rename_i notOpen
      exact Option.not_isSome_iff_eq_none.mp notOpen
  obtain ⟨placed, places, areCalls⟩ := callsNatives.exists_places isClosed fuse
  obtain ⟨steps, builder, linked, finished, isPlaced, rfl⟩ :=
    exists_finished isFinished places.placedBy
  have links := finished.links codeUnit.natives
  rw [links.nativeCalls_of_lift isLifted, Placement.map_statement_ofSteps, isPlaced]
  exact areCalls

omit callsNatives

/-- What becomes of the natives of a session. -/
structure KeepsNatives (requests : List UnitRequest) : Prop where
  nodup : (afterRequests requests).natives.toList.Nodup
  few : (afterRequests requests).natives.size ≤ maxNatives
  /-- An index that is answered for a hash is its place in the table and stays the answer. -/
  stable : ∀ history hash future index next,
    requests = history ++ .nativeIndex hash :: future →
    nativeIndex hash (afterRequests history) = .ok index next →
    (afterRequests requests).natives[index.toNat]? = some hash ∧
      nativeIndex hash (afterRequests requests) = .ok index (afterRequests requests)
  /-- A hash that is not in the table is refused exactly if the table is full. -/
  refused_iff : ∀ hash, hash ∉ (afterRequests requests).natives →
    ((∃ error next, nativeIndex hash (afterRequests requests) = .error error next) ↔
      (afterRequests requests).natives.size = maxNatives)
  /-- The native calls that are lifted are those that succeeded, in order. -/
  lifted : (∀ request ∈ requests, request.Emittable) →
    (∀ request ∈ requests, request.NoRawNative) →
    ∀ fuse code lifted, (afterRequests requests).finish fuse = .ok code →
      lift code.pages.flatten code.natives = .ok lifted →
      lifted.toList.filterMap (fun operation => operation.operation.nativeCall?) =
        nativeCalls {} requests

theorem keepsNatives_afterRequests (requests : List UnitRequest) : KeepsNatives requests where
  nodup := (Indexed.afterRequests requests).nodup
  few := (Indexed.afterRequests requests).fewNatives
  stable := by
    rintro history hash future index next rfl answered
    have indexed := Indexed.afterRequests history
    have isNext :
        stateAfter ((UnitRequest.nativeIndex hash).run (afterRequests history)) = next := by
      rw [UnitRequest.run, stateAfter_ignore, answered]
      rfl
    have kept := keepsHashes_resume next future
    have found : (afterRequests (history ++ .nativeIndex hash :: future)).natives[index.toNat]? =
        some hash := by
      rw [afterRequests_append, resume, List.foldl_cons, isNext]
      exact kept _ _ (indexed.getElem?_natives answered)
    exact ⟨found, (Indexed.afterRequests _).nativeIndex_eq found⟩
  refused_iff hash absent := by
    have indexed := Indexed.afterRequests requests
    rcases nativeIndex_cases indexed hash with
      ⟨_, _, known⟩ | ⟨index, added, _, room⟩ | ⟨refused, full⟩
    · exact absurd known absent
    · refine iff_of_false ?_ (Nat.ne_of_lt room)
      rintro ⟨error, next, failed⟩
      rw [added] at failed
      cases failed
    · exact iff_of_true ⟨_, _, refused⟩ (Nat.le_antisymm indexed.fewNatives full)
  lifted emittable noRawNative fuse code lifted isFinished isLifted := by
    have written := CallsNatives.empty.resume indexed_empty emittable noRawNative
    exact written.nativeCalls_of_lift isFinished isLifted

/-- A session that calls a native in vain, then two natives around a sum that is fused. -/
def fusedBetweenNatives : List UnitRequest :=
  [.unitCall (.native 0 0 5), .unitCall (.beginFunction "main"), .unitCall (.native 65 7 9),
    .unitCall (.emit (.plain .pushConstU8 (.u8 1))), .unitCall (.emit (.plain .iadd .none)),
    .unitCall (.native 1 0 5), .unitCall (.native 2 1 9), .unitCall .endFunction]

/-- The native that was called in vain comes first in the table, but is lifted only where it was
called again. -/
theorem keepsNatives_fusedBetweenNatives :
    (∀ request ∈ fusedBetweenNatives, request.Emittable ∧ request.NoRawNative) ∧
      (afterRequests fusedBetweenNatives).natives = #[5, 9] ∧
      ∃ code lifted, (afterRequests fusedBetweenNatives).finish true = .ok code ∧
        lift code.pages.flatten code.natives = .ok lifted ∧
        lifted.toList.filterMap (fun operation => operation.operation.nativeCall?) =
          [.nativeCall 1 3 9, .nativeCall 1 0 5, .nativeCall 2 1 9] := by
  have allowed : ∀ request ∈ fusedBetweenNatives, request.Emittable ∧ request.NoRawNative := by
    decide
  have known : ((afterRequests fusedBetweenNatives).finish true).toOption.map (fun code =>
      (lift code.pages.flatten code.natives).toOption.isSome) = some true := by
    decide +kernel
  have areCalls : nativeCalls {} fusedBetweenNatives =
      [.nativeCall 1 3 9, .nativeCall 1 0 5, .nativeCall 2 1 9] := by
    decide +kernel
  obtain ⟨code, isFinished, isLifted⟩ := Option.map_eq_some_iff.mp known
  obtain ⟨lifted, isLifted⟩ := Option.isSome_iff_exists.mp isLifted
  rw [toOption_eq_some_iff] at isFinished isLifted
  refine ⟨allowed, by decide +kernel, code, lifted, isFinished, isLifted, ?_⟩
  rw [← areCalls]
  exact (keepsNatives_afterRequests fusedBetweenNatives).lifted
    (fun request member => (allowed request member).1)
    (fun request member => (allowed request member).2) true code lifted isFinished isLifted

end CodeUnit
end ScriptBytecode
