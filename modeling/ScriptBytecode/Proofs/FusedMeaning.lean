import ScriptBytecode.Proofs.PlacedFunctions

/-!
# Fused code means the same

Code that is finished with fusing has the operations of the code that is finished without, if
skipped page tails are left out and every target is given by the number of operations before it.
-/

namespace ScriptBytecode

open Builder

/-- Whether an address of a finished unit lies in a page tail that was skipped and filled. -/
def CodeUnit.inFiller (codeUnit : CodeUnit) (fuse : Bool) (address : Nat) : Bool :=
  inSkippedTail 0 (instructionsOf (codeUnit.placedFunctions fuse)) address

namespace CodeUnit

/-- Finished code, relative to the order of its operations, can be read off the tokens of the calls
that place its functions. -/
theorem relativeOperations_lift
    {codeUnit : CodeUnit} {fuse : Bool} {code : UnitCode}
    (isFinished : codeUnit.finish fuse = .ok code)
    (fits : code.length < 2 ^ 32)
    {calls : List BuildCall}
    (placed : PlacedBy Statement.SymbolicTargets (codeUnit.placedFunctions fuse) calls) :
    (lift code.pages.flatten code.natives).toOption.map (fun lifted =>
        relativeOperations (codeUnit.inFiller fuse) lifted.toList) =
      (tokens? codeUnit.natives calls).map fun tokens =>
        if (positionedOperations tokens).isEmpty then []
        else positionedOperations tokens ++ [.endOfScript] := by
  obtain ⟨steps, builder, linked, finished, isCalls, rfl⟩ := exists_finished isFinished placed
  have symbolic : ∀ placement ∈ Placement.ofSteps "" 0 steps,
      placement.statement.SymbolicTargets := by
    intro placement member
    have isCall := List.mem_map_of_mem (f := Prod.fst) (Placement.mem_of_mem_ofSteps member)
    rw [isCalls] at isCall
    exact (placed.satisfies _ isCall).2
  have relative := finished.relativeOperations_lift symbolic fits codeUnit.natives
  rw [isCalls, Placement.map_bytes_ofSteps, isCalls, placed.bytes] at relative
  exact relative

/-- Fusing keeps the meaning of code: if a session uses symbolic targets, and its code can be
finished with and without fusing and can be lifted without, then it can be lifted with fusing.
Apart from skipped page tails, the operations are the same, with each target given by the number of
operations before it. -/
theorem finish_fuse_sameOperations
    {calls : List UnitCall}
    (symbolic : ∀ call ∈ calls, call.Symbolic)
    {plain fused : UnitCode}
    (plainFinished : (runCalls calls).finish false = .ok plain)
    (fusedFinished : (runCalls calls).finish true = .ok fused)
    (plainFits : plain.length < 2 ^ 32)
    (fusedFits : fused.length < 2 ^ 32)
    {plainLifted : Array LiftedOperation}
    (lifts : lift plain.pages.flatten plain.natives = .ok plainLifted) :
    ∃ fusedLifted, lift fused.pages.flatten fused.natives = .ok fusedLifted ∧
      relativeOperations ((runCalls calls).inFiller true) fusedLifted.toList =
        relativeOperations ((runCalls calls).inFiller false) plainLifted.toList := by
  have isSymbolic : ∀ function ∈ (runCalls calls).finished.toList,
      function.Satisfies Statement.SymbolicTargets :=
    fun function member =>
      (Satisfies.runCalls symbolic).finished function (Array.mem_def.mpr member)
  obtain ⟨plainCalls, fusedCalls, plainPlaced, fusedPlaced, same⟩ :=
    PlacedBy.exists_sameTokens_map isSymbolic
  rw [← Array.toList_map] at fusedPlaced
  have plainRelative := relativeOperations_lift plainFinished plainFits plainPlaced
  have fusedRelative := relativeOperations_lift fusedFinished fusedFits fusedPlaced
  rw [same, ← plainRelative, lifts] at fusedRelative
  obtain ⟨fusedLifted, isLifted, sameOperations⟩ := Option.map_eq_some_iff.mp fusedRelative
  exact ⟨fusedLifted, toOption_eq_some_iff.mp isLifted, sameOperations⟩

/-- A session with a loop, a native and calls in both directions, in which an addition, a
comparison and an access to an array item can be fused. -/
def fusibleSession : List UnitCall :=
  [.beginFunction "main", .emit (.enter 0 2 none), .label "top",
    .emit (.plain .pushConstU8 (.u8 10)), .emit (.plain .iadd .none),
    .emit (.plain .ieq .none), .emit (.jump .jz "done"), .emit (.call "helper"),
    .native 1 1 0x4EDE34FBADD967A6, .emit (.jump .j "top"), .label "done",
    .emit (.leave 0 0), .endFunction, .beginFunction "helper",
    .emit (.plain .arrayU8 (.u8 3)), .emit (.plain .load .none), .emit (.leave 0 1), .endFunction]

theorem finish_fuse_sameOperations_fusibleSession :
    ∃ plain fused plainLifted fusedLifted,
      (runCalls fusibleSession).finish false = .ok plain ∧
      (runCalls fusibleSession).finish true = .ok fused ∧
      fused.length < plain.length ∧
      lift plain.pages.flatten plain.natives = .ok plainLifted ∧
      lift fused.pages.flatten fused.natives = .ok fusedLifted ∧
      relativeOperations ((runCalls fusibleSession).inFiller true) fusedLifted.toList =
        relativeOperations ((runCalls fusibleSession).inFiller false) plainLifted.toList := by
  have plainKnown : ((runCalls fusibleSession).finish false).toOption.map (fun code =>
      (code.length, (lift code.pages.flatten code.natives).toOption.isSome)) =
      some (32, true) := by
    decide +kernel
  have fusedKnown : ((runCalls fusibleSession).finish true).toOption.map (·.length) =
      some 29 := by
    decide +kernel
  obtain ⟨plain, isPlain, plainFacts⟩ := Option.map_eq_some_iff.mp plainKnown
  obtain ⟨fused, isFused, fusedLength⟩ := Option.map_eq_some_iff.mp fusedKnown
  obtain ⟨plainLength, plainLifts⟩ := Prod.mk.inj plainFacts
  obtain ⟨plainLifted, isLifted⟩ := Option.isSome_iff_exists.mp plainLifts
  rw [toOption_eq_some_iff] at isPlain isFused isLifted
  obtain ⟨fusedLifted, isFusedLifted, same⟩ := finish_fuse_sameOperations (by decide +kernel)
    isPlain isFused (by omega) (by omega) isLifted
  exact ⟨plain, fused, plainLifted, fusedLifted, isPlain, isFused, by omega, isLifted,
    isFusedLifted, same⟩

end CodeUnit
end ScriptBytecode
