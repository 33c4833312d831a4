import ScriptBytecode.Proofs.ExactLinking
import ScriptBytecode.Proofs.LiftedCode
import ScriptBytecode.Proofs.TokenStream

/-!
# Operations relative to their order

Lifted code can be compared with other code if fillers are left out and every target is replaced
by the number of operations before it.  For linked code, the result depends only on the tokens of
the session: it does not matter where instructions were placed.
-/

namespace ScriptBytecode

open Instruction Statement Builder

/-- Lifted operations without those in skipped page tails, each target replaced by the number of
remaining operations at addresses below it. -/
def relativeOperations (skipped : Nat → Bool) (lifted : List LiftedOperation) : List Operation :=
  let kept := lifted.filter fun operation => !skipped operation.address
  kept.map fun operation => operation.operation.mapTargets fun target =>
    kept.countP (·.address < target)

/-- Whether an address lies in a page tail that is skipped when instructions are placed one after
the other, from code of a given size on. -/
def inSkippedTail : (size : Nat) → List Bytes → (address : Nat) → Bool
  | _, [], _ => false
  | size, bytes :: rest, address =>
    (size ≤ address && address < addressFor size bytes) ||
      inSkippedTail (addressFor size bytes + bytes.size) rest address

/-! ## Lifting linked code -/

/-- The operations of consecutive instructions have addresses inside of their code. -/
theorem address_of_mem_liftedOf?
    {natives : Array UInt64} {start : Nat} {instructions : List Instruction}
    (consecutive : Consecutive start instructions)
    {lifted : List LiftedOperation}
    (isLifted : liftedOf? natives instructions = some lifted) :
    ∀ operation ∈ lifted,
      start ≤ operation.address ∧ operation.address < start + (codeOf instructions).size := by
  induction instructions generalizing start lifted with
  | nil =>
      cases isLifted
      simp
  | cons instruction rest ih =>
      obtain ⟨place, later⟩ := consecutive
      obtain ⟨operations, _, isLifted⟩ := Option.bind_eq_some_iff.mp isLifted
      obtain ⟨others, isOthers, isLifted⟩ := Option.bind_eq_some_iff.mp isLifted
      cases isLifted
      have positive := instruction.size_pos
      have restBounds := ih later isOthers
      unfold Instruction.size at positive
      rw [codeOf, Array.size_append]
      intro operation member
      rcases List.mem_append.mp member with here | inRest
      · obtain ⟨_, _, rfl⟩ := List.mem_map.mp here
        simp only [place]
        omega
      · have bounds := restBounds operation inRest
        unfold stop Instruction.size at bounds
        omega

/-- The instructions in a skipped page tail can be lifted. -/
theorem exists_liftedOf?_gapInstructions
    (natives : Array UInt64)
    (codeSize : Nat)
    (bytes : Bytes) :
    ∃ lifted, liftedOf? natives (gapInstructions codeSize bytes) = some lifted ∧
      ∀ operation ∈ lifted,
        codeSize ≤ operation.address ∧ operation.address < addressFor codeSize bytes := by
  have liftNops : ∀ start count, ∃ lifted, liftedOf? natives (nops start count) = some lifted := by
    intro start count
    induction count generalizing start with
    | zero => exact ⟨[], rfl⟩
    | succ count ih =>
        obtain ⟨others, isOthers⟩ := ih (start + 1)
        exact ⟨⟨start, .nop⟩ :: others, by rw [nops, liftedOf?, isOthers]; rfl⟩
  have liftGap : ∃ lifted, liftedOf? natives (gapInstructions codeSize bytes) = some lifted := by
    unfold gapInstructions fillerInstructions
    split
    · split
      · obtain ⟨others, isOthers⟩ := liftNops (codeSize + 3)
          (pageLength - codeSize % pageLength - 3)
        exact ⟨⟨codeSize, .jump _⟩ :: others, by rw [liftedOf?, isOthers]; rfl⟩
      · exact liftNops _ _
    · exact ⟨[], rfl⟩
  obtain ⟨lifted, isLifted⟩ := liftGap
  refine ⟨lifted, isLifted, ?_⟩
  have bounds := address_of_mem_liftedOf? (consecutive_gapInstructions codeSize bytes) isLifted
  rwa [codeOf_gapInstructions] at bounds

section SkippedTail

variable {size address : Nat} {bytes : Bytes}

/-- An address before the code that instructions are placed behind is in none of the page tails
between them. -/
theorem inSkippedTail_of_lt
    (earlier : address < size)
    (instructions : List Bytes) :
    inSkippedTail size instructions address = false := by
  induction instructions generalizing size with
  | nil => rfl
  | cons bytes rest ih =>
      have placed := le_addressFor size bytes
      have notInGap : ¬size ≤ address := by omega
      have notInRest : inSkippedTail (addressFor size bytes + bytes.size) rest address = false :=
        ih (by omega)
      simp [inSkippedTail, notInGap, notInRest]

theorem inSkippedTail_before
    (notEarlier : size ≤ address)
    (notLater : address < addressFor size bytes)
    (rest : List Bytes) :
    inSkippedTail size (bytes :: rest) address = true := by
  simp [inSkippedTail, notEarlier, notLater]

theorem inSkippedTail_addressFor
    (notEmpty : 0 < bytes.size)
    (rest : List Bytes) :
    inSkippedTail size (bytes :: rest) (addressFor size bytes) = false := by
  simp [inSkippedTail, inSkippedTail_of_lt (Nat.lt_add_of_pos_right notEmpty)]

theorem inSkippedTail_behind
    (behind : addressFor size bytes + bytes.size ≤ address)
    (rest : List Bytes) :
    inSkippedTail size (bytes :: rest) address =
      inSkippedTail (addressFor size bytes + bytes.size) rest address := by
  have notInGap : ¬address < addressFor size bytes := by omega
  simp [inSkippedTail, notInGap]

end SkippedTail

namespace Placement

variable {natives : Array UInt64} {start : Nat} {placements : List Placement}
    {operations : List (Placement × SymbolicOperation)}

/-- The symbolic operations of placed statements; nothing if one of them cannot be lifted. -/
def operations? (natives : Array UInt64) :
    List Placement → Option (List (Placement × SymbolicOperation))
  | [] => some []
  | placement :: rest => do
    let operations ← placement.statement.operations? natives
    let others ← operations? natives rest
    return operations.map (placement, ·) ++ others

theorem mem_operations?
    (found : operations? natives placements = some operations)
    {placement : Placement} {operation : SymbolicOperation}
    (member : (placement, operation) ∈ operations) :
    placement ∈ placements ∧ ∃ here, placement.statement.operations? natives = some here ∧
      operation ∈ here := by
  induction placements generalizing operations with
  | nil =>
      cases found
      cases member
  | cons head rest ih =>
      obtain ⟨here, isHere, found⟩ := Option.bind_eq_some_iff.mp found
      obtain ⟨others, isOthers, found⟩ := Option.bind_eq_some_iff.mp found
      cases found
      rcases List.mem_append.mp member with inHead | inRest
      · obtain ⟨_, isOperation, ⟨⟩⟩ := List.mem_map.mp inHead
        exact ⟨List.mem_cons_self, here, isHere, isOperation⟩
      · obtain ⟨isPlacement, isOperation⟩ := ih isOthers inRest
        exact ⟨List.mem_cons_of_mem _ isPlacement, isOperation⟩

/-- There are no operations exactly if there are no instructions. -/
theorem isEmpty_operations?
    (functions : Array FunctionSymbols)
    (found : operations? natives placements = some operations) :
    (linked functions placements).isEmpty = operations.isEmpty := by
  cases placements with
  | nil =>
      cases found
      rfl
  | cons placement rest =>
      obtain ⟨here, isHere, found⟩ := Option.bind_eq_some_iff.mp found
      obtain ⟨others, _, found⟩ := Option.bind_eq_some_iff.mp found
      cases found
      rw [Bool.eq_iff_iff, List.isEmpty_iff, List.isEmpty_iff]
      simp [linked, operations?_ne_nil isHere]

/-- A symbolic operation of a placed statement at the addresses of labels and functions. -/
def lifted (functions : Array FunctionSymbols) : Placement × SymbolicOperation → LiftedOperation
  | (placement, operation) =>
    ⟨placement.address, operation (labelOf functions placement.function) (startOf functions)⟩

/-- What is left of lifted code without the page tails that were skipped: the operations of the
placed statements. -/
theorem filter_liftedOf?_linked
    {functions : Array FunctionSymbols}
    (laid : Laid start placements)
    (symbolic : ∀ placement ∈ placements, placement.statement.SymbolicTargets)
    (leads : ∀ placement ∈ placements, LeadsTo placement.address
      (labelOperand functions placement.function placement.address) (functionOperand functions)
      (labelOf functions placement.function) (startOf functions) placement.statement)
    (natives : Array UInt64) :
    (liftedOf? natives (linked functions placements)).map (List.filter fun operation =>
        !inSkippedTail start (placements.map bytes) operation.address) =
      (operations? natives placements).map (List.map (lifted functions)) := by
  induction placements generalizing start with
  | nil => rfl
  | cons placement rest ih =>
      have consecutive := consecutive_linked functions laid
      obtain ⟨rfl, placed, emittable, fewCases, later⟩ := laid
      obtain ⟨targets, restTargets⟩ := List.forall_mem_cons.mp symbolic
      obtain ⟨leadsHere, restLeads⟩ := List.forall_mem_cons.mp leads
      obtain ⟨inTail, isTail, tailBounds⟩ :=
        exists_liftedOf?_gapInstructions natives placement.before placement.bytes
      have here : ((placement.instruction functions).operations natives).toOption = _ :=
        operations_resolved ⟨emittable, fewCases⟩ targets leadsHere natives
      have others := ih later restTargets restLeads
      rw [linked, liftedOf?_append, isTail, liftedOf?, here, operations?]
      cases placement.statement.operations? natives with
      | none => rfl
      | some operations =>
          cases isRest : liftedOf? natives (linked functions rest) with
          | none =>
              rw [isRest] at others
              cases noOperations : operations? natives rest with
              | none => rfl
              | some _ =>
                  rw [noOperations] at others
                  cases others
          | some restLifted =>
              rw [isRest] at others
              obtain ⟨restOperations, isOperations, sameRest⟩ :=
                Option.map_eq_some_iff.mp others.symm
              let keep (operation : LiftedOperation) : Bool :=
                !inSkippedTail placement.before ((placement :: rest).map bytes) operation.address
              have tailSkipped : inTail.filter keep = [] := by
                refine List.filter_eq_nil_iff.mpr fun operation member => ?_
                have bounds := tailBounds operation member
                simp [keep, inSkippedTail_before bounds.1 bounds.2]
              have restKept : restLifted.filter keep = restOperations.map (lifted functions) := by
                rw [sameRest]
                refine List.filter_congr fun operation member => ?_
                have bounds := address_of_mem_liftedOf? (consecutive_linked functions later)
                  isRest operation member
                simp only [keep, List.map_cons]
                rw [inSkippedTail_behind (placed ▸ bounds.1), placed]
              change Option.map (List.filter keep) _ = _
              simp only [Option.map_some, Option.bind_eq_bind, Option.bind_some,
                Option.pure_def, isOperations, List.filter_append, tailSkipped, restKept,
                List.nil_append, List.map_append, List.map_map, Option.some.injEq,
                List.append_cancel_right_eq]
              rw [List.filter_eq_self.mpr]
              · simp [lifted, Function.comp_def]
              · rintro _ member
                obtain ⟨_, _, rfl⟩ := List.mem_map.mp member
                simp [keep, placed, bytes,
                  inSkippedTail_addressFor placement.statement.size_fragment_pos]

/-- The end of the code is in none of the page tails. -/
theorem inSkippedTail_stop
    (laid : Laid start placements) :
    inSkippedTail start (placements.map bytes) (start + (codeBefore placements).size) = false := by
  induction placements generalizing start with
  | nil => rfl
  | cons placement rest ih =>
      obtain ⟨rfl, placed, _, _, later⟩ := laid
      have size : placement.before + (codeBefore (placement :: rest)).size =
          addressFor placement.before placement.bytes + placement.bytes.size +
            (codeBefore rest).size := by
        simp only [codeBefore, Array.size_append, addressFor]
        omega
      rw [size, List.map_cons, inSkippedTail_behind (Nat.le_add_right _ _)]
      rw [placed] at later
      exact ih later

/-- The operations of placed statements are those of the tokens of the session. -/
theorem operations?_ofSteps
    (natives : Array UInt64)
    (function : String)
    (size : Nat)
    (steps : List BuildStep) :
    (operations? natives (ofSteps function size steps)).map
        (List.map fun (placement, operation) => (placement.function, operation)) =
      (tokens? natives (steps.map Prod.fst)).map (operationsIn function) := by
  induction steps generalizing function size with
  | nil => rfl
  | cons step rest ih =>
      obtain ⟨call, answer⟩ := step
      cases call with
      | beginFunction name =>
          rw [ofSteps, ih, List.map_cons, tokens?]
          cases tokens? natives (rest.map Prod.fst) <;> rfl
      | addLabel label =>
          rw [ofSteps, ih, List.map_cons, tokens?]
          cases tokens? natives (rest.map Prod.fst) <;> rfl
      | endFunction =>
          rw [ofSteps, ih, List.map_cons, tokens?]
          cases tokens? natives (rest.map Prod.fst) <;> rfl
      | emit statement =>
          have others := ih function (answer + statement.fragment.bytes.size)
          rw [ofSteps, List.map_cons, tokens?, operations?, BuildCall.tokens?]
          cases statement.operations? natives with
          | none => rfl
          | some operations =>
              cases restTokens : tokens? natives (rest.map Prod.fst) with
              | none =>
                  rw [restTokens] at others
                  rw [Option.map_eq_none_iff.mp others]
                  rfl
              | some tokens =>
                  rw [restTokens] at others
                  obtain ⟨restOperations, isRest, same⟩ := Option.map_eq_some_iff.mp others
                  rw [isRest]
                  simp [← same, operationsIn_operations]

end Placement
end ScriptBytecode
