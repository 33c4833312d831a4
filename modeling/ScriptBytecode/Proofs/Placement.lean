import ScriptBytecode.Proofs.Statements

/-!
# Placing one statement

What a builder does with a whole statement: it fills the page if the instruction does not fit in
it, places the bytes, records a fixup for every reference, and binds the start of the function and
the labels that wait for an instruction.
-/

namespace ScriptBytecode

variable {α : Type}

/-- Elements in the order of their keys stay as they are when they are sorted. -/
theorem sortByKey_eq_self
    {key : α → Nat} {elements : List α}
    (sorted : elements.Pairwise fun left right => key left ≤ key right) :
    sortByKey key elements = elements := by
  induction elements with
  | nil => rfl
  | cons head rest ih =>
      obtain ⟨headLeast, restSorted⟩ := List.pairwise_cons.mp sorted
      rw [sortByKey, List.foldr_cons]
      change insertByKey key head (sortByKey key rest) = head :: rest
      rw [ih restSorted]
      cases rest with
      | nil => rfl
      | cons next others =>
          rw [insertByKey, if_pos (headLeast next List.mem_cons_self)]

theorem insertByKey_perm (key : α → Nat) (element : α) (elements : List α) :
    (insertByKey key element elements).Perm (element :: elements) := by
  induction elements with
  | nil => exact List.Perm.refl _
  | cons head rest ih =>
      rw [insertByKey]
      split
      · exact List.Perm.refl _
      · exact (ih.cons head).trans (List.Perm.swap element head rest)

theorem sortByKey_perm (key : α → Nat) (elements : List α) :
    (sortByKey key elements).Perm elements := by
  induction elements with
  | nil => exact List.Perm.refl _
  | cons head rest ih =>
      exact (insertByKey_perm key head _).trans (ih.cons head)

theorem insertByKey_sorted
    {key : α → Nat}
    (element : α)
    {elements : List α}
    (sorted : elements.Pairwise fun left right => key left ≤ key right) :
    (insertByKey key element elements).Pairwise fun left right => key left ≤ key right := by
  induction elements with
  | nil => exact List.pairwise_singleton _ _
  | cons head rest ih =>
      obtain ⟨headLeast, restSorted⟩ := List.pairwise_cons.mp sorted
      rw [insertByKey]
      split
      · rename_i notAfter
        refine List.pairwise_cons.mpr ⟨List.forall_mem_cons.mpr ⟨notAfter, ?_⟩, sorted⟩
        exact fun other member => Nat.le_trans notAfter (headLeast other member)
      · rename_i isAfter
        refine List.pairwise_cons.mpr ⟨fun other member => ?_, ih restSorted⟩
        rcases List.mem_cons.mp ((insertByKey_perm key element rest).mem_iff.mp member) with
          rfl | inRest
        · exact Nat.le_of_not_le isAfter
        · exact headLeast other inRest

theorem sortByKey_sorted (key : α → Nat) (elements : List α) :
    (sortByKey key elements).Pairwise fun left right => key left ≤ key right := by
  induction elements with
  | nil => exact List.Pairwise.nil
  | cons head rest ih => exact insertByKey_sorted head ih

namespace Statement

variable {bytes : Bytes} {position : Nat} {references : List Reference}

variable (placeholders : Placeholders bytes position references)

include placeholders

theorem Placeholders.le_offset :
    ∀ reference ∈ references, position ≤ reference.offset := by
  induction references generalizing position with
  | nil => simp
  | cons next rest ih =>
      obtain ⟨reached, _, later⟩ := placeholders
      intro reference member
      rcases List.mem_cons.mp member with equal | inRest
      · subst equal
        exact reached
      · have bound := ih later reference inRest
        omega

theorem Placeholders.sorted :
    references.Pairwise fun left right => left.offset ≤ right.offset := by
  induction references generalizing position with
  | nil => exact List.Pairwise.nil
  | cons next rest ih =>
      obtain ⟨_, _, later⟩ := placeholders
      refine List.pairwise_cons.mpr ⟨?_, ih later⟩
      intro reference member
      have bound := later.le_offset reference member
      omega

theorem Placeholders.position_le :
    position ≤ bytes.size := by
  induction references generalizing position with
  | nil => exact placeholders
  | cons next rest ih =>
      obtain ⟨reached, _, later⟩ := placeholders
      have bound := ih later
      omega

/-- Every reference lies inside of the bytes. -/
theorem Placeholders.operand_le :
    ∀ reference ∈ references, reference.offset + reference.kind.width ≤ bytes.size := by
  induction references generalizing position with
  | nil => simp
  | cons next rest ih =>
      obtain ⟨_, _, later⟩ := placeholders
      intro reference member
      rcases List.mem_cons.mp member with equal | inRest
      · subst equal
        exact later.position_le
      · exact ih later reference inRest

end Statement

namespace Builder

open Statement

/-- The fixup of a reference of an instruction at an address. -/
def fixupOf (function : String) (address : Nat) (reference : Reference) : Fixup :=
  ⟨function, reference.kind, reference.target, address + reference.offset⟩

/-- Writing the bytes of an instruction with references puts the bytes in the buffer and records
the references as if the instruction stood at the end of the code. -/
theorem writeReferences_eq
    {bytes : Bytes} {position : Nat} {references : List Reference}
    (placeholders : Placeholders bytes position references)
    (builder : Builder)
    {function : OpenFunction}
    (current : builder.current = some function)
    (written : builder.buffer.size = position) :
    writeReferences bytes position references builder =
      .ok ()
        { builder with
          buffer := builder.buffer ++ bytes.extract position bytes.size
          recent := builder.recent ++
            (references.map (fixupOf function.name builder.code.size)).toArray } := by
  induction references generalizing position builder with
  | nil =>
      have reached : position ≤ bytes.size := placeholders
      simp [writeReferences, reached, write]
  | cons next rest ih =>
      obtain ⟨reached, zeros, later⟩ := placeholders
      have operandEnd := later.position_le
      have inBounds : position ≤ next.offset ∧ next.offset ≤ bytes.size := by omega
      have filled : builder.buffer ++ bytes.extract position next.offset ++
          Array.replicate next.kind.width 0 ++
          bytes.extract (next.offset + next.kind.width) bytes.size =
          builder.buffer ++ bytes.extract position bytes.size := by
        rw [← zeros, Array.append_assoc, Array.append_assoc, Array.extract_append_extract,
          Nat.min_eq_left (by omega), Nat.max_eq_right (by omega),
          Array.extract_append_extract, Nat.min_eq_left (by omega), Nat.max_eq_right (by omega)]
      have atReference : builder.buffer.size + (bytes.extract position next.offset).size =
          next.offset := by
        rw [Array.size_extract]
        omega
      have afterReference := ih later
        { builder with
          buffer := builder.buffer ++ bytes.extract position next.offset ++
            Array.replicate next.kind.width 0
          recent := builder.recent.push (fixupOf function.name builder.code.size next) }
        current (by
          rw [Array.size_append, Array.size_append, Array.size_replicate]
          omega)
      rw [writeReferences, if_pos inBounds]
      simp only [bind, EStateM.bind, write, reference, current, Array.size_append, atReference]
      rw [current] at afterReference
      refine afterReference.trans ?_
      simp only [filled]
      simp

/-- The address at which an instruction is placed after code of a given size. -/
def addressFor (codeSize : Nat) (bytes : Bytes) : Nat :=
  codeSize + (gap codeSize bytes).size

/-- A builder that has placed an instruction of a function. -/
def afterPlacing (builder : Builder) (function : OpenFunction) (fragment : Fragment) : Builder :=
  let address := addressFor builder.code.size fragment.bytes
  { code := builder.code ++ gap builder.code.size fragment.bytes ++ fragment.bytes
    buffer := fragment.bytes
    settled := builder.settled ++ builder.recent
    recent := (fragment.references.map (fixupOf function.name address)).toArray
    functions := builder.functions
    current := some (function.bindAt address) }

/-- The fixups that are moved with an instruction are those of the address it is moved to. -/
theorem recent_moved
    (codeSize : Nat)
    (gap : Bytes)
    (function : String)
    (references : List Reference) :
    (if gap.isEmpty then (references.map (fixupOf function codeSize)).toArray
      else (references.map (fixupOf function codeSize)).toArray.map fun fixup =>
        { fixup with address := fixup.address + gap.size }) =
      (references.map (fixupOf function (codeSize + gap.size))).toArray := by
  have moved : ∀ reference : Reference, codeSize + reference.offset + gap.size =
      codeSize + gap.size + reference.offset := by
    intro reference
    omega
  split
  · rename_i empty
    rw [Array.isEmpty_iff] at empty
    simp [empty]
  · apply Array.toList_inj.mp
    simp [fixupOf, Function.comp_def, moved]

theorem get_eq_ok (builder : Builder) : (get : BuildM Builder) builder = .ok builder builder :=
  rfl

/-- A whole instruction is placed and its address is answered. -/
theorem instruction_eq
    {fragment : Fragment}
    (placeholders : Placeholders fragment.bytes 0 fragment.references)
    (notEmpty : 0 < fragment.bytes.size)
    (notTooLong : fragment.bytes.size < instructionLimit)
    (builder : Builder)
    {function : OpenFunction}
    (current : builder.current = some function)
    (between : function.inInstruction = false) :
    instruction fragment.bytes fragment.references builder =
      .ok (addressFor builder.code.size fragment.bytes)
        (builder.afterPlacing function fragment) := by
  obtain ⟨bytes, references⟩ := fragment
  have begun : beginInstruction builder =
      .ok ()
        { builder with
          buffer := #[]
          settled := builder.settled ++ builder.recent
          recent := #[]
          current := some { function with inInstruction := true } } := by
    simp [beginInstruction, current, between]
  have written := writeReferences_eq placeholders
    { builder with
      buffer := #[]
      settled := builder.settled ++ builder.recent
      recent := #[]
      current := some { function with inInstruction := true } } rfl rfl
  simp only [Array.extract_size, Array.empty_append] at written
  have isNotEmpty : bytes.isEmpty = false := by
    rw [Array.isEmpty_eq_false_iff_exists_mem]
    exact ⟨bytes[0], Array.getElem_mem notEmpty⟩
  have answered : (builder.code ++ gap builder.code.size bytes ++ bytes).size - bytes.size =
      addressFor builder.code.size bytes := by
    rw [Array.size_append, Array.size_append, addressFor]
    omega
  have bound : ∀ address, { OpenFunction.bindAt { function with inInstruction := true } address with
      inInstruction := false } = function.bindAt address := by
    intro address
    simp [OpenFunction.bindAt, between]
  simp only [instruction, sortByKey_eq_self placeholders.sorted, bind, EStateM.bind, begun, written,
    get_eq_ok, pure, EStateM.pure, endInstruction, Bool.not_true, Bool.false_eq_true, if_false,
    isNotEmpty, Nat.not_le.mpr notTooLong, place, afterPlacing, recent_moved, bound, answered]
  rfl

end Builder
end ScriptBytecode
