import ScriptBytecode.Proofs.LinkedCode

/-!
# Page layout of linked code

Linked code is divided into full pages and a last one.  No emitted instruction crosses a page, and
one that falls through leaves the last byte of its page free.  A walk over the code finds the
emitted instructions in order, with fillers in the page tails that were skipped.
-/

namespace ScriptBytecode

open Instruction Statement Builder

variable {start : Nat}

/-- An instruction is an instance of a statement if it is the statement with some operands in
place of its references. -/
def Statement.IsInstance (statement : Statement) (instruction : Instruction) : Prop :=
  ∃ labelOperand functionOperand,
    instruction = statement.resolved instruction.ip labelOperand functionOperand

/-- The address of the page after the one that an address lies in. -/
def nextPage (address : Nat) : Nat :=
  (address / pageLength + 1) * pageLength

/-- Number of bytes from an address to the end of its page. -/
def roomInPage (address : Nat) : Nat :=
  pageLength - address % pageLength

/-- Instructions that fill a page from an address on: no-ops if there is little room, and else a
jump to the next page and no-ops. -/
inductive FillsPage (start : Nat) : List Instruction → Prop
  | noOps
      (little : roomInPage start ≤ 3) :
      FillsPage start (nops start (roomInPage start))
  | jump
      (offset : Int16)
      (enough : 3 < roomInPage start)
      (leads : jumpTarget start offset = nextPage start) :
      FillsPage start (⟨start, .j, .rel16 offset⟩ :: nops (start + 3) (roomInPage start - 3))

/-- Instructions from an address on are instances of statements at their addresses, in order, with
fillers in the page tails that are skipped because the next statement does not fit. -/
inductive Interleaved : (start : Nat) → List (Statement × Nat) → List Instruction → Prop
  | nil (start : Nat) : Interleaved start [] []
  | emitted
      {statement : Statement}
      {instruction : Instruction}
      {statements : List (Statement × Nat)}
      {instructions : List Instruction}
      (isInstance : statement.IsInstance instruction)
      (rest : Interleaved instruction.stop statements instructions) :
      Interleaved instruction.ip ((statement, instruction.ip) :: statements)
        (instruction :: instructions)
  | skipped
      {start : Nat}
      {statement : Statement}
      {statements : List (Statement × Nat)}
      {tail instructions : List Instruction}
      (begun : start % pageLength ≠ 0)
      (crosses : Crosses start statement.fragment.bytes)
      (fills : FillsPage start tail)
      (rest : Interleaved (nextPage start) ((statement, nextPage start) :: statements)
        instructions) :
      Interleaved start ((statement, nextPage start) :: statements) (tail ++ instructions)

/-- The statements of a session with their addresses. -/
def emittedIn : List BuildStep → List (Statement × Nat)
  | [] => []
  | (.emit statement, address) :: rest => (statement, address) :: emittedIn rest
  | _ :: rest => emittedIn rest

theorem mem_emittedIn
    {steps : List BuildStep} {statement : Statement} {address : Nat} :
    (statement, address) ∈ emittedIn steps ↔ (.emit statement, address) ∈ steps := by
  induction steps with
  | nil => simp [emittedIn]
  | cons head rest ih =>
      obtain ⟨call, answer⟩ := head
      cases call <;> simp [emittedIn, ih]

theorem Placement.map_ofSteps
    (function : String)
    (size : Nat)
    (steps : List BuildStep) :
    (ofSteps function size steps).map (fun placement =>
      (placement.statement, placement.address)) = emittedIn steps := by
  induction steps generalizing function size with
  | nil => rfl
  | cons head rest ih =>
      obtain ⟨call, answer⟩ := head
      cases call <;> simp [ofSteps, emittedIn, ih]

/-! ## Fillers and instructions in a page -/

/-- The instructions of a page tail fill it. -/
theorem fillsPage_fillerInstructions
    (small : nextPage start < 2 ^ 32) :
    FillsPage start (fillerInstructions start (roomInPage start)) := by
  unfold fillerInstructions
  split
  · rename_i enough
    refine .jump _ enough ?_
    have inPage : roomInPage start - 3 < 2 ^ 15 := by
      unfold roomInPage pageLength
      omega
    have offset : (UInt16.ofNat (roomInPage start - 3)).toInt16.toInt =
        (roomInPage start - 3 : Nat) := by
      rw [UInt16.toInt16_ofNat', Int16.toInt_ofNat_of_lt inPage]
    have leads : start + 3 + (roomInPage start - 3) = nextPage start := by
      unfold roomInPage nextPage pageLength at *
      omega
    rw [jumpTarget, offset]
    unfold wrapAddress
    omega
  · rename_i little
    exact .noOps (Nat.le_of_not_lt little)

/-- An instruction at the start of a page fits in it. -/
theorem not_crosses_of_mod_eq_zero
    {bytes : Bytes}
    (atStart : start % pageLength = 0)
    (short : bytes.size < instructionLimit) :
    ¬Crosses start bytes := by
  have reserved := reservedBytes_le_one bytes
  unfold Crosses
  unfold instructionLimit at short
  unfold pageLength at *
  omega

/-- A statement reserves the last byte of a page unless its opcode passes control on or does
nothing. -/
theorem reservedBytes_fragment (statement : Statement) :
    reservedBytes statement.fragment.bytes =
      if statement.opcode.isControlFlow || statement.opcode == .nop then 0 else 1 := by
  simp [reservedBytes, statement.getElem?_zero_fragment]

/-- Linked placements are interleaved with fillers of page tails. -/
theorem Placement.interleaved_linked
    (functions : Array FunctionSymbols)
    {placements : List Placement}
    (laid : Laid start placements)
    (small : ∀ placement ∈ placements, placement.address < 2 ^ 32) :
    Interleaved start
      (placements.map fun placement => (placement.statement, placement.address))
      (linked functions placements) := by
  induction placements generalizing start with
  | nil => exact .nil start
  | cons placement rest ih =>
      obtain ⟨rfl, placed, emittable, fewCases, later⟩ := laid
      obtain ⟨smallHere, smallLater⟩ := List.forall_mem_cons.mp small
      have isInstance : placement.statement.IsInstance (placement.instruction functions) :=
        ⟨_, _, by rw [ip_instruction]; rfl⟩
      have tail := ih later smallLater
      have stop : (placement.instruction functions).stop =
          placement.address + placement.bytes.size := by
        rw [Instruction.stop, ip_instruction, size_instruction]
      rw [← stop] at tail
      have here := Interleaved.emitted isInstance tail
      rw [ip_instruction] at here
      rw [List.map_cons, linked, gapInstructions]
      rw [addressFor_eq] at placed
      split at placed
      · rename_i crosses
        change placement.address = nextPage placement.before at placed
        have begun : placement.before % pageLength ≠ 0 := fun atStart =>
          not_crosses_of_mod_eq_zero atStart (size_bytes_lt emittable fewCases) crosses
        rw [placed] at here smallHere ⊢
        rw [if_pos crosses]
        exact .skipped begun crosses (fillsPage_fillerInstructions smallHere) here
      · rename_i fits
        rw [if_neg fits, List.nil_append, ← placed]
        exact here

/-! ## Sessions -/

/-- The layout of finished code.  Every page but the last one is full, and the lengths of the pages
sum up to that of the code.  No emitted instruction crosses a page, and one that falls through does
not end with a page, no-ops excepted.  A walk over the code succeeds and finds the emitted
instructions at their addresses, in order, interleaved only with fillers of skipped page tails.
The length of code is a 32-bit word. -/
theorem Builder.finish_pageLayout
    {calls : List BuildCall}
    (emittable : ∀ call ∈ calls, call.Emittable)
    {steps : List BuildStep} {builder : Builder}
    (ran : runCalls calls {} = (steps, builder))
    {result : LinkedCode}
    (finish : builder.finish = .ok result)
    (fits : result.length < 2 ^ 32) :
    (∀ (index : Nat) (page : Array UInt8), result.pages.pages[index]? = some page →
        index + 1 < result.pages.pages.size → page.size = 0x4000) ∧
      (result.pages.pages.map Array.size).sum = result.length ∧
      (∀ statement address, (.emit statement, address) ∈ steps →
        address % 0x4000 + statement.fragment.bytes.size ≤ 0x4000 ∧
          (statement.opcode.isControlFlow = false → statement.opcode ≠ .nop →
            address % 0x4000 + statement.fragment.bytes.size < 0x4000)) ∧
      (walk result.pages.flatten).failure = none ∧
      Interleaved 0 (emittedIn steps) (walk result.pages.flatten).instructions.toList := by
  have finished := finished_of_finish emittable ran finish
  have walked : walk result.pages.flatten =
      ⟨(Finished.instructions steps builder).toArray, none⟩ := by
    rw [finished.flatten_pages]
    exact walk_codeOf finished.wellFormed finished.consecutive
  have small : ∀ placement ∈ Placement.ofSteps "" 0 steps, placement.address < 2 ^ 32 := by
    intro placement member
    have inCode := finished.stop_le_length member
    omega
  refine ⟨?_, ?_, ?_, by rw [walked], ?_⟩
  · intro index page found notLast
    rw [← finished.linked] at found notLast
    exact Paged.size_page_ofArray found notLast
  · rw [← Array.size_flatten]
    change result.pages.flatten.size = result.length
    rw [finished.flatten_pages, ← finished.linked]
    rfl
  · intro statement address member
    rw [← mem_emittedIn, ← Placement.map_ofSteps "" 0 steps, List.mem_map] at member
    obtain ⟨placement, isPlacement, isHere⟩ := member
    cases isHere
    obtain ⟨placed, emittable, fewCases⟩ := finished.laid.of_mem isPlacement
    have inPage := addressFor_mod_add_le placement.before
      (Placement.size_bytes_lt emittable fewCases)
    rw [← placed, Placement.bytes, reservedBytes_fragment] at inPage
    unfold pageLength at inPage
    refine ⟨by omega, fun fallsThrough notNop => ?_⟩
    simp only [fallsThrough, Bool.false_or, beq_iff_eq, notNop, if_false] at inPage
    omega
  · rw [walked, ← Placement.map_ofSteps "" 0 steps]
    exact Placement.interleaved_linked builder.functions finished.laid small

theorem Builder.finish_pageLayout_crowdedSession :
    ∃ result, (runCalls crowdedSession {}).2.finish = .ok result ∧
      result.pages.pages.size = 2 ∧
      (∀ (index : Nat) (page : Array UInt8), result.pages.pages[index]? = some page →
        index + 1 < result.pages.pages.size → page.size = 0x4000) ∧
      (result.pages.pages.map Array.size).sum = 16668 ∧
      (∀ statement address, (.emit statement, address) ∈ (runCalls crowdedSession {}).1 →
        address % 0x4000 + statement.fragment.bytes.size ≤ 0x4000 ∧
          (statement.opcode.isControlFlow = false → statement.opcode ≠ .nop →
            address % 0x4000 + statement.fragment.bytes.size < 0x4000)) ∧
      (walk result.pages.flatten).failure = none ∧
      Interleaved 0 (emittedIn (runCalls crowdedSession {}).1)
        (walk result.pages.flatten).instructions.toList := by
  obtain ⟨result, finish, length, pages⟩ := exists_finish_crowdedSession
  have laidOut := finish_pageLayout emittable_crowdedSession (Prod.eta _).symm finish (by omega)
  rw [length] at laidOut
  exact ⟨result, finish, pages, laidOut⟩

end ScriptBytecode
