import ScriptBytecode.Proofs.FusedInstructions
import ScriptBytecode.Proofs.ReachableArenas
import ScriptBytecode.Proofs.UnreadableCode

/-!
# The stream of an arena

The instructions of an arena make a stream: the labels of each instruction, then its operations, in
which a target is the name that a reference gives, or the operand as it stands.  Fusing leaves the
stream of a reachable arena as it is, with every label in its place, if the instructions are well
formed.
-/

namespace ScriptBytecode

/-- A target of an operation: the name in a reference, or the operand itself. -/
inductive StreamTarget where
  | named (name : String)
  | raw (operand : Int)
deriving DecidableEq, Repr

/-- An item of the stream of instructions. -/
inductive StreamItem where
  | label (name : String)
  /-- An operation without its targets, which are given apart. -/
  | operation (operation : Operation) (targets : List StreamTarget)
  /-- An instruction without operations. -/
  | unlifted (error : Error)

/-- The item of an operation of an instruction with the given targets. -/
def Operation.item (targets : List StreamTarget) (operation : Operation) : StreamItem :=
  .operation (operation.mapTargets fun _ => 0) (if operation.hasTargets then targets else [])

/-- The targets of an instruction with references. -/
def Instruction.streamTargets (instruction : Instruction) (references : List Reference) :
    List StreamTarget :=
  instruction.targetOperands.map fun (offset, operand) =>
    match references.find? (·.offset == offset) with
    | some reference => .named reference.target
    | none => .raw operand

namespace Entry

/-- The operations of an instruction in the stream. -/
def items (natives : Array UInt64) (entry : Entry) : List StreamItem :=
  match Instruction.decode entry.bytes 0 with
  | .error error => [.unlifted error]
  | .ok instruction =>
    match instruction.operations natives with
    | .error error => [.unlifted error]
    | .ok operations => operations.map (Operation.item (instruction.streamTargets entry.references))

/-- The labels of an instruction and its operations. -/
def stream (natives : Array UInt64) (entry : Entry) : List StreamItem :=
  entry.labels.map .label ++ entry.items natives

/-- An instruction of the length that its opcode and its operands call for, with references at
operands that are targets only. -/
structure WellFormed (entry : Entry) : Prop where
  length : ∃ opcode, opcodeOf? entry.bytes = some opcode ∧
    Instruction.length? opcode (fun index => entry.bytes[index]?) = some entry.bytes.size
  references : ∀ instruction, Instruction.decode entry.bytes 0 = .ok instruction →
    ∀ reference ∈ entry.references, reference.offset ∈ instruction.targetOperands.map Prod.fst

end Entry

/-- The stream of the live instructions of an arena, in program order. -/
def Arena.stream (natives : Array UInt64) (arena : Arena) : List StreamItem :=
  arena.entries.toList.flatMap (Entry.stream natives)

/-! ## Well-formed instructions -/

namespace Instruction

variable {instruction : Instruction} {operations : List Operation}

/-- A single instruction is read from its bytes. -/
theorem Single.decode_bytes (single : instruction.Single) :
    decode instruction.bytes 0 = .ok instruction := by
  have decoded := decode_append single.toWellFormed #[] #[] single.ip.symm
  rwa [Array.empty_append, Array.append_empty, single.ip] at decoded

theorem Means.items_eq
    (means : instruction.Means operations)
    (entry : Entry)
    (isBytes : entry.bytes = instruction.bytes)
    (natives : Array UInt64) :
    entry.items natives =
      operations.map (Operation.item (instruction.streamTargets entry.references)) := by
  simp only [Entry.items, isBytes, means.single.decode_bytes, means.operations natives]

theorem Plain.items_eq
    (plain : instruction.Plain operations)
    (entry : Entry)
    (isBytes : entry.bytes = instruction.bytes)
    (natives : Array UInt64) :
    entry.items natives = operations.map (Operation.item []) := by
  rw [plain.toMeans.items_eq entry isBytes, streamTargets, plain.noTargets, List.map_nil]

end Instruction

/-- Bytes of the length that their opcode calls for are those of a single instruction. -/
theorem Instruction.exists_single
    {opcode : Opcode} {byte : UInt8} {rest : List UInt8}
    (isOpcode : Opcode.ofByte? byte = some opcode)
    (length : length? opcode (fun index => (byte :: rest)[index]?) = some (rest.length + 1)) :
    ∃ instruction : Instruction, instruction.Single ∧
      (byte :: rest).toArray = instruction.bytes := by
  obtain ⟨operands, read⟩ := Operands.exists_ofBytes? length
  obtain ⟨layout, sameBytes, fits⟩ := Operands.of_ofBytes? read
  refine ⟨⟨0, opcode, operands⟩, ⟨⟨layout, fits⟩, rfl⟩, ?_⟩
  rw [bytes, sameBytes, Opcode.toByte_of_ofByte? isOpcode]

namespace Entry

/-- A slot's instruction is a single instruction with references at targets of it. -/
structure Holds (entry : Entry) (instruction : Instruction) : Prop where
  single : instruction.Single
  bytes : entry.bytes = instruction.bytes
  references : ∀ reference ∈ entry.references,
    reference.offset ∈ instruction.targetOperands.map Prod.fst

variable {entry : Entry}

theorem Holds.wellFormed
    {instruction : Instruction}
    (holds : entry.Holds instruction) :
    entry.WellFormed := by
  constructor
  · rw [holds.bytes]
    exact ⟨instruction.opcode, Instruction.opcodeOf?_bytes instruction,
      Instruction.length?_eq_size holds.single.toWellFormed _ fun _ _ => rfl⟩
  · intro other decoded
    rw [holds.bytes, holds.single.decode_bytes] at decoded
    cases decoded
    exact holds.references

/-- A well-formed instruction is the single instruction that its bytes are read as. -/
theorem WellFormed.exists_holds (wellFormed : entry.WellFormed) :
    ∃ instruction, entry.Holds instruction := by
  obtain ⟨⟨bytes⟩, references, labels⟩ := entry
  obtain ⟨opcode, isOpcode, length⟩ := wellFormed.length
  obtain ⟨byte, isByte, isOpcode⟩ := Option.bind_eq_some_iff.mp isOpcode
  cases bytes with
  | nil => cases isByte
  | cons first rest =>
      obtain rfl : first = byte := Option.some.inj isByte
      have restLength : Instruction.length? opcode (fun index => (first :: rest)[index]?) =
          some (rest.length + 1) := by
        simpa using length
      obtain ⟨instruction, single, isBytes⟩ := Instruction.exists_single isOpcode restLength
      refine ⟨instruction, single, isBytes, wellFormed.references instruction ?_⟩
      rw [← single.decode_bytes, ← isBytes]

/-- Well-formed instructions that can be fused hold instructions that are joined. -/
theorem WellFormed.exists_joins
    {other : Entry}
    (wellFormed : entry.WellFormed)
    (otherWellFormed : other.WellFormed)
    {fusion : Fusion}
    (found : Fusion.find? entry.bytes other.bytes = some fusion) :
    ∃ left right, entry.Holds left ∧ other.Holds right ∧ Fusion.Joins left right fusion := by
  obtain ⟨left, isLeft⟩ := wellFormed.exists_holds
  obtain ⟨right, isRight⟩ := otherWellFormed.exists_holds
  rw [isLeft.bytes, isRight.bytes] at found
  exact ⟨left, right, isLeft, isRight, Fusion.find?_joins isLeft.single isRight.single found⟩

end Entry

/-! ## Fusions -/

namespace Operation

/-- Operations without targets do not depend on the targets of their instruction. -/
theorem map_item_of_targetless
    {operations : List Operation}
    (targetless : ∀ operation ∈ operations, operation.hasTargets = false)
    (targets : List StreamTarget) :
    operations.map (item targets) = operations.map (item []) := by
  apply List.map_congr_left
  intro operation member
  simp only [item, targetless operation member, Bool.false_eq_true, if_false]

end Operation

/-- Any instruction can be put in place of one without targets, which has no references. -/
theorem Entry.Holds.replaced
    {entry : Entry} {instruction other : Instruction}
    (holds : entry.Holds instruction)
    {operations others : List Operation}
    (plain : instruction.Plain operations)
    (otherPlain : other.Plain others) :
    ({ entry with bytes := other.bytes } : Entry).Holds other := by
  refine ⟨otherPlain.single, rfl, fun reference member => ?_⟩
  have atTarget := holds.references reference member
  rw [plain.noTargets] at atTarget
  cases atTarget

namespace Arena

variable {entries others : List Entry}

/-- Instructions that are put in place of others keep the stream and are well formed. -/
structure KeepsStream (others entries : List Entry) : Prop where
  wellFormed : ∀ entry ∈ others, entry.WellFormed
  stream : ∀ natives, others.flatMap (Entry.stream natives) =
    entries.flatMap (Entry.stream natives)

/-- Instructions that keep their part of the stream keep all of it. -/
theorem KeepsStream.between
    {before after : List Entry}
    (keeps : KeepsStream others entries)
    (beforeWellFormed : ∀ entry ∈ before, entry.WellFormed)
    (afterWellFormed : ∀ entry ∈ after, entry.WellFormed) :
    KeepsStream (before ++ others ++ after) (before ++ entries ++ after) := by
  constructor
  · simp only [List.forall_mem_append]
    exact ⟨⟨beforeWellFormed, keeps.wellFormed⟩, afterWellFormed⟩
  · intro natives
    simp only [List.flatMap_append, keeps.stream natives]

/-! What becomes of two neighbours keeps their part of the stream.  The labels of the first one come
before all operations, and the second one has none, so that only the operations are compared. -/

section Neighbours

variable {first second : Entry} {bytes : Bytes}

theorem keepsStream_intoFirst
    (firstWellFormed : first.WellFormed)
    (secondWellFormed : second.WellFormed)
    (noLabel : second.labels = [])
    (found : Fusion.find? first.bytes second.bytes = some (.intoFirst bytes)) :
    KeepsStream [{ first with bytes }] [first, second] := by
  obtain ⟨left, right, isLeft, isRight, joins⟩ :=
    firstWellFormed.exists_joins secondWellFormed found
  cases joins with
  | @intoFirst fused _ _ isFirst isSecond isFused =>
      constructor
      · exact List.forall_mem_singleton.mpr (isLeft.replaced isFirst isFused).wellFormed
      · intro natives
        have fusedItems := isFused.items_eq { first with bytes := fused.bytes } rfl natives
        simp [Entry.stream, noLabel, isFirst.items_eq first isLeft.bytes,
          isSecond.items_eq second isRight.bytes, fusedItems]

theorem keepsStream_intoSecond
    (firstWellFormed : first.WellFormed)
    (secondWellFormed : second.WellFormed)
    (noLabel : second.labels = [])
    (found : Fusion.find? first.bytes second.bytes = some (.intoSecond bytes)) :
    KeepsStream [{ second with bytes, labels := first.labels }] [first, second] := by
  obtain ⟨left, right, isLeft, isRight, joins⟩ :=
    firstWellFormed.exists_joins secondWellFormed found
  cases joins with
  | @intoSecond fused _ _ isFirst targetless isSecond isFused sameTargets =>
      constructor
      · have isHeld : Entry.Holds
            { second with bytes := fused.bytes, labels := first.labels } fused :=
          ⟨isFused.single, rfl, sameTargets ▸ isRight.references⟩
        exact List.forall_mem_singleton.mpr isHeld.wellFormed
      · intro natives
        have fusedItems := isFused.items_eq
          { second with bytes := fused.bytes, labels := first.labels } rfl natives
        rw [Instruction.streamTargets, sameTargets, List.map_append,
          Operation.map_item_of_targetless targetless] at fusedItems
        simp [Entry.stream, noLabel, isFirst.items_eq first isLeft.bytes,
          isSecond.items_eq second isRight.bytes, fusedItems, Instruction.streamTargets]

theorem keepsStream_both
    (firstWellFormed : first.WellFormed)
    (secondWellFormed : second.WellFormed)
    (noLabel : second.labels = [])
    {firstBytes secondBytes : Bytes}
    (found : Fusion.find? first.bytes second.bytes = some (.both firstBytes secondBytes)) :
    KeepsStream [{ first with bytes := firstBytes }, { second with bytes := secondBytes }]
      [first, second] := by
  obtain ⟨left, right, isLeft, isRight, joins⟩ :=
    firstWellFormed.exists_joins secondWellFormed found
  cases joins with
  | @both newFirst newSecond _ _ _ _ isFirst isSecond isNewFirst isNewSecond same =>
      constructor
      · exact List.forall_mem_cons.mpr ⟨(isLeft.replaced isFirst isNewFirst).wellFormed,
          List.forall_mem_singleton.mpr (isRight.replaced isSecond isNewSecond).wellFormed⟩
      · intro natives
        have firstItems := isNewFirst.items_eq { first with bytes := newFirst.bytes } rfl natives
        have secondItems :=
          isNewSecond.items_eq { second with bytes := newSecond.bytes } rfl natives
        have sameItems := congrArg (List.map (Operation.item [])) same
        rw [List.map_append, List.map_append] at sameItems
        rw [noLabel] at secondItems
        simp [Entry.stream, noLabel, isFirst.items_eq first isLeft.bytes,
          isSecond.items_eq second isRight.bytes, firstItems, secondItems, sameItems]

end Neighbours

/-- A fusion of two neighbours keeps the stream. -/
theorem FusionStep.keepsStream
    (step : FusionStep entries others)
    (wellFormed : ∀ entry ∈ entries, entry.WellFormed) :
    KeepsStream others entries := by
  have neighbours : ∀ {before after : List Entry} {first second : Entry},
      (∀ entry ∈ before ++ first :: second :: after, entry.WellFormed) →
      (∀ entry ∈ before, entry.WellFormed) ∧ first.WellFormed ∧ second.WellFormed ∧
        ∀ entry ∈ after, entry.WellFormed := by
    intro before after first second allWellFormed
    rwa [List.forall_mem_append, List.forall_mem_cons, List.forall_mem_cons] at allWellFormed
  cases step with
  | intoFirst before after noLabel found =>
      obtain ⟨beforeFormed, firstFormed, secondFormed, afterFormed⟩ := neighbours wellFormed
      simpa using (keepsStream_intoFirst firstFormed secondFormed noLabel found).between
        beforeFormed afterFormed
  | intoSecond before after noLabel found =>
      obtain ⟨beforeFormed, firstFormed, secondFormed, afterFormed⟩ := neighbours wellFormed
      simpa using (keepsStream_intoSecond firstFormed secondFormed noLabel found).between
        beforeFormed afterFormed
  | both before after noLabel found =>
      obtain ⟨beforeFormed, firstFormed, secondFormed, afterFormed⟩ := neighbours wellFormed
      simpa using (keepsStream_both firstFormed secondFormed noLabel found).between
        beforeFormed afterFormed

/-- Any number of fusions keeps the stream. -/
theorem FusionSteps.keepsStream
    (steps : FusionSteps entries others)
    (wellFormed : ∀ entry ∈ entries, entry.WellFormed) :
    KeepsStream others entries := by
  induction steps with
  | refl => exact ⟨wellFormed, fun _ => rfl⟩
  | tail _ step ih =>
      have once := step.keepsStream ih.wellFormed
      exact ⟨once.wellFormed, fun natives =>
        (once.stream natives).trans (ih.stream natives)⟩

/-- Fusing a reachable arena of well-formed instructions leaves its stream, in which every label
keeps its place among the operations, the labels for the next instruction and those after the last
one.  The instructions that are left are well formed. -/
theorem stream_fuse
    {arena : Arena}
    (reachable : Reachable arena)
    (wellFormed : ∀ entry ∈ arena.entries, entry.WellFormed)
    (natives : Array UInt64) :
    arena.fuse.1.stream natives = arena.stream natives ∧
      arena.fuse.1.pending = arena.pending ∧ arena.fuse.1.trailing = arena.trailing ∧
      ∀ entry ∈ arena.fuse.1.entries, entry.WellFormed := by
  obtain ⟨live, represents⟩ := reachable.exists_represents
  obtain ⟨others, fused, steps, trailing⟩ := represents.fuse
  have isEntries := represents.entries_eq
  have isFused := fused.entries_eq
  rw [isEntries] at wellFormed
  have keeps := FusionSteps.keepsStream steps (by simpa using wellFormed)
  refine ⟨?_, pending_fuse arena, trailing, ?_⟩
  · simp only [stream, isEntries, isFused]
    exact keeps.stream natives
  · rw [isFused]
    simpa using keeps.wellFormed

/-- A labelled sum that is compared and jumped on, with a label after the jump. -/
def comparedSum : Arena :=
  [Call.addLabel "top",
    .push ⟨#[Opcode.pushConstU8U8.toByte, 3, 4], [], []⟩,
    .push ⟨#[Opcode.iadd.toByte], [], []⟩,
    .addLabel "test",
    .push ⟨#[Opcode.ieq.toByte], [], []⟩,
    .push ⟨#[Opcode.jz.toByte, 0, 0], [⟨1, .relative, "end"⟩], []⟩,
    .addLabel "end", .close].foldl afterCall {}

theorem wellFormed_comparedSum : ∀ entry ∈ comparedSum.entries, entry.WellFormed := by
  have isEntries : comparedSum.entries = #[
      ⟨#[Opcode.pushConstU8U8.toByte, 3, 4], [], ["top"]⟩,
      ⟨#[Opcode.iadd.toByte], [], []⟩,
      ⟨#[Opcode.ieq.toByte], [], ["test"]⟩,
      ⟨#[Opcode.jz.toByte, 0, 0], [⟨1, .relative, "end"⟩], []⟩] := by
    decide +kernel
  have pushes : Instruction.Single ⟨0, .pushConstU8U8, .u8u8 3 4⟩ := ⟨⟨rfl, trivial⟩, rfl⟩
  have adds : Instruction.Single ⟨0, .iadd, .none⟩ := ⟨⟨rfl, trivial⟩, rfl⟩
  have compares : Instruction.Single ⟨0, .ieq, .none⟩ := ⟨⟨rfl, trivial⟩, rfl⟩
  have jumps : Instruction.Single ⟨0, .jz, .rel16 0⟩ := ⟨⟨rfl, trivial⟩, rfl⟩
  intro entry member
  simp only [isEntries, List.mem_toArray, List.mem_cons, List.not_mem_nil, or_false] at member
  rcases member with rfl | rfl | rfl | rfl
  · exact Entry.Holds.wellFormed ⟨pushes, rfl, by decide⟩
  · exact Entry.Holds.wellFormed ⟨adds, rfl, by decide⟩
  · exact Entry.Holds.wellFormed ⟨compares, rfl, by decide⟩
  · exact Entry.Holds.wellFormed ⟨jumps, rfl, by decide⟩

/-- The byte for the sum becomes its immediate and the comparison is fused into the jump, which
takes over its label. -/
theorem stream_fuse_comparedSum :
    (comparedSum.fuse.2 = 2 ∧ comparedSum.fuse.1.entries.size = 3) ∧
      comparedSum.fuse.1.stream #[] = comparedSum.stream #[] ∧
      comparedSum.fuse.1.pending = comparedSum.pending ∧
      comparedSum.fuse.1.trailing = comparedSum.trailing ∧
      ∀ entry ∈ comparedSum.fuse.1.entries, entry.WellFormed := by
  have reachable : Reachable comparedSum := Reachable.empty.calls _
  exact ⟨by decide +kernel, stream_fuse reachable wellFormed_comparedSum #[]⟩

end Arena
end ScriptBytecode
