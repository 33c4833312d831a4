import ScriptBytecode.Proofs.Words

/-!
# Bytes that hold some content

A segment of bytes holds some content at a position.  The bytes and the words of the content are
then read at their offsets from the position.
-/

namespace ScriptBytecode

namespace Bytes

/-- The 16-bit word at an offset, when both its bytes are there. -/
def uint16At? (bytes : Bytes) (offset : Nat) : Option UInt16 := do
  let byte0 ← bytes[offset]?
  let byte1 ← bytes[offset + 1]?
  return toUInt16 byte0 byte1

/-- The 24-bit word at an offset, when all its bytes are there. -/
def uint24At? (bytes : Bytes) (offset : Nat) : Option UInt32 := do
  let byte0 ← bytes[offset]?
  let byte1 ← bytes[offset + 1]?
  let byte2 ← bytes[offset + 2]?
  return toUInt24 byte0 byte1 byte2

theorem length_ofUInt32 (value : UInt32) : (ofUInt32 value).length = 4 :=
  rfl

end Bytes

namespace Segment

/-- A segment has some content at a position. -/
def Holds (segment : Bytes) (position : Nat) (content : List UInt8) : Prop :=
  ∃ before after, segment.toList = before ++ (content ++ after) ∧ before.length = position

namespace Holds

variable {segment : Bytes} {position : Nat} {content : List UInt8}

theorem inside (holds : Holds segment position content) :
    position + content.length ≤ segment.size := by
  obtain ⟨before, after, isSegment, rfl⟩ := holds
  rw [← Array.length_toList, isSegment]
  simp only [List.length_append]
  omega

theorem followed (holds : Holds segment position content) (trailing : Bytes) :
    Holds (segment ++ trailing) position content := by
  obtain ⟨before, after, isSegment, isPosition⟩ := holds
  refine ⟨before, after ++ trailing.toList, ?_, isPosition⟩
  rw [Array.toList_append, isSegment]
  simp only [List.append_assoc]

theorem left
    {first second : List UInt8}
    (holds : Holds segment position (first ++ second)) :
    Holds segment position first := by
  obtain ⟨before, after, isSegment, isPosition⟩ := holds
  refine ⟨before, second ++ after, ?_, isPosition⟩
  rw [isSegment, List.append_assoc]

theorem right
    {first second : List UInt8}
    (holds : Holds segment position (first ++ second)) :
    Holds segment (position + first.length) second := by
  obtain ⟨before, after, isSegment, isPosition⟩ := holds
  refine ⟨before ++ first, after, ?_, ?_⟩
  · rw [isSegment]
    simp only [List.append_assoc]
  · rw [List.length_append, isPosition]

theorem exists_rest (holds : Holds segment position content) :
    ∃ after, (segment.extract position segment.size).toList = content ++ after := by
  obtain ⟨before, after, isSegment, rfl⟩ := holds
  refine ⟨after, ?_⟩
  rw [Array.toList_extract, ← Array.length_toList, isSegment, List.extract_eq_take_drop,
    List.drop_left, List.length_append, Nat.add_sub_cancel_left, List.take_length]

theorem extract_eq
    {page : Bytes}
    (holds : Holds segment position page.toList) :
    segment.extract position (position + page.size) = page := by
  obtain ⟨before, after, isSegment, rfl⟩ := holds
  apply Array.toList_inj.mp
  rw [Array.toList_extract, isSegment, List.extract_eq_take_drop, List.drop_left,
    Nat.add_sub_cancel_left, ← Array.length_toList, List.take_left]

theorem getElem?_eq
    (holds : Holds segment position content)
    (index : Nat)
    (inContent : index < content.length) :
    segment[position + index]? = content[index]? := by
  obtain ⟨before, after, isSegment, rfl⟩ := holds
  rw [← Array.getElem?_toList, isSegment, List.getElem?_append_right (Nat.le_add_right _ _),
    Nat.add_sub_cancel_left, List.getElem?_append_left inContent]

theorem getElem?_zero_eq
    (holds : Holds segment position content)
    (notEmpty : 0 < content.length) :
    segment[position]? = content[0]? := by
  have first := holds.getElem?_eq 0 notEmpty
  rwa [Nat.add_zero] at first

theorem uint16At?_eq
    {value : UInt16}
    (holds : Holds segment position (Bytes.ofUInt16 value)) :
    Bytes.uint16At? segment position = some value := by
  have first := holds.getElem?_zero_eq (Nat.zero_lt_succ _)
  simp [Bytes.uint16At?, first, holds.getElem?_eq, Bytes.ofUInt16]

theorem uint24At?_eq
    {value : UInt32}
    (fits : value.toNat < 2 ^ 24)
    (holds : Holds segment position (Bytes.ofUInt24 value)) :
    Bytes.uint24At? segment position = some value := by
  have first := holds.getElem?_zero_eq (Nat.zero_lt_succ _)
  simpa [Bytes.uint24At?, first, holds.getElem?_eq, Bytes.ofUInt24, ← UInt32.toNat_inj,
    Bytes.toNat_toUInt24_ofUInt24] using fits

theorem uint32At?_eq
    {value : UInt32}
    (holds : Holds segment position (Bytes.ofUInt32 value)) :
    Bytes.uint32At? segment position = some value := by
  have first := holds.getElem?_zero_eq (Nat.zero_lt_succ _)
  simp [Bytes.uint32At?, first, holds.getElem?_eq, Bytes.ofUInt32]

theorem uint64At?_eq
    {value : UInt64}
    (holds : Holds segment position (Bytes.ofUInt64 value)) :
    Bytes.uint64At? segment position = some value := by
  rw [Bytes.ofUInt64_eq] at holds
  have low := holds.left.uint32At?_eq
  have high := holds.right.uint32At?_eq
  rw [Bytes.length_ofUInt32] at high
  simp [Bytes.uint64At?, low, high]

end Holds
end Segment
end ScriptBytecode
