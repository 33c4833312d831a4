import Std.Data.TreeMap.Lemmas
import ScriptBytecode.Proofs.UnitSession

/-!
# The natives of a code unit

The table of natives has every hash once, and the index of a hash is its place in the table.  Adding
hashes that differ from each other to an empty table gives a table of just these hashes.
-/

namespace ScriptBytecode
namespace CodeUnit

/-- A code unit that knows the places of its natives. -/
structure Indexed (codeUnit : CodeUnit) : Prop where
  fewNatives : codeUnit.natives.size ≤ maxNatives
  indices : ∀ (hash : UInt64) (index : UInt16), codeUnit.nativeIndices[hash]? = some index ↔
    codeUnit.natives[index.toNat]? = some hash

/-- Two units with the same natives. -/
def SameNatives (codeUnit other : CodeUnit) : Prop :=
  other.natives = codeUnit.natives ∧ other.nativeIndices = codeUnit.nativeIndices

theorem indexed_empty : Indexed {} where
  fewNatives := Nat.zero_le _
  indices := by
    intro hash index
    simp

namespace Indexed

variable {codeUnit : CodeUnit} {hash : UInt64} {index : Nat} {allowed : Statement → Prop}
    {next : CodeUnit}

variable (indexed : codeUnit.Indexed)

include indexed

/-- The table stays indexed while nothing is added to it. -/
theorem of_same
    (same : SameNatives codeUnit next) :
    next.Indexed := by
  obtain ⟨fewNatives, indices⟩ := indexed
  obtain ⟨sameTable, sameIndices⟩ := same
  exact ⟨sameTable ▸ fewNatives, by rw [sameTable, sameIndices]; exact indices⟩

theorem toNat_ofNat
    (inBounds : index < codeUnit.natives.size) :
    (UInt16.ofNat index).toNat = index := by
  have few : codeUnit.natives.size ≤ 0x10000 := indexed.fewNatives
  rw [UInt16.toNat_ofNat']
  omega

/-- The hash at a place of the table has that place as index. -/
theorem nativeIndices_getElem
    (found : codeUnit.natives[index]? = some hash) :
    codeUnit.nativeIndices[hash]? = some (UInt16.ofNat index) := by
  obtain ⟨inBounds, -⟩ := Array.getElem?_eq_some_iff.mp found
  rw [indexed.indices, indexed.toNat_ofNat inBounds, found]

/-- The hashes without an index are those that are not in the table. -/
theorem nativeIndices_eq_none_iff :
    codeUnit.nativeIndices[hash]? = none ↔ hash ∉ codeUnit.natives := by
  constructor
  · intro unknown member
    obtain ⟨index, found⟩ := Array.mem_iff_getElem?.mp member
    rw [indexed.nativeIndices_getElem found] at unknown
    cases unknown
  · intro absent
    cases known : codeUnit.nativeIndices[hash]? with
    | none => rfl
    | some index =>
        exact absurd (Array.mem_of_getElem? ((indexed.indices hash index).mp known)) absent

theorem nodup : codeUnit.natives.toList.Nodup := by
  rw [List.nodup_iff_getElem?_ne_getElem?]
  intro first second before inBounds same
  rw [Array.length_toList] at inBounds
  rw [Array.getElem?_toList, Array.getElem?_toList,
    Array.getElem?_eq_getElem (Nat.lt_trans before inBounds)] at same
  have isFirst := indexed.nativeIndices_getElem
    (Array.getElem?_eq_getElem (Nat.lt_trans before inBounds))
  have isSecond := indexed.nativeIndices_getElem same.symm
  rw [isFirst, Option.some.injEq, ← UInt16.toNat_inj,
    indexed.toNat_ofNat (Nat.lt_trans before inBounds), indexed.toNat_ofNat inBounds] at isSecond
  omega

/-- A native in the table is found there. -/
theorem nativeIndex_eq
    {index : UInt16}
    (found : codeUnit.natives[index.toNat]? = some hash) :
    nativeIndex hash codeUnit = .ok index codeUnit := by
  simp only [nativeIndex, (indexed.indices hash index).mpr found]

/-- A native that is not in the table is added to it. -/
theorem nativeIndex_of_not_mem
    (absent : hash ∉ codeUnit.natives)
    (room : codeUnit.natives.size < maxNatives) :
    nativeIndex hash codeUnit =
      .ok (UInt16.ofNat codeUnit.natives.size) (codeUnit.withNative hash) := by
  have unknown := indexed.nativeIndices_eq_none_iff.mpr absent
  rcases codeUnit.nativeIndex_outcomes hash with
    ⟨index, known, -⟩ | ⟨-, -, added⟩ | ⟨-, full, -⟩
  · cases unknown.symm.trans known
  · exact added
  · exact absurd full (Nat.not_le.mpr room)

/-- A new native has the place after all others. -/
theorem withNative
    (absent : hash ∉ codeUnit.natives)
    (room : codeUnit.natives.size < maxNatives) :
    (codeUnit.withNative hash).Indexed where
  fewNatives := by
    rw [CodeUnit.withNative, Array.size_push]
    exact room
  indices := by
    intro other index
    rw [maxNatives] at room
    simp only [CodeUnit.withNative, Std.TreeMap.getElem?_insert,
      Std.LawfulEqCmp.compare_eq_iff_eq, Array.getElem?_push]
    by_cases same : hash = other
    · subst same
      rw [if_pos rfl, Option.some.injEq, ← UInt16.toNat_inj, UInt16.toNat_ofNat',
        Nat.mod_eq_of_lt (by omega)]
      by_cases atEnd : index.toNat = codeUnit.natives.size
      · simp [atEnd]
      · rw [if_neg atEnd, ← indexed.indices, indexed.nativeIndices_eq_none_iff.mpr absent]
        simpa using Ne.symm atEnd
    · rw [if_neg same, indexed.indices]
      by_cases atEnd : index.toNat = codeUnit.natives.size
      · simp [atEnd, same]
      · rw [if_neg atEnd]

/-- The table stays indexed whatever changes. -/
theorem change
    (change : Change allowed codeUnit next) :
    next.Indexed := by
  cases change with
  | addNative hash unknown room =>
      exact indexed.withNative (indexed.nativeIndices_eq_none_iff.mp unknown) room
  | beginFunction => exact indexed.of_same ⟨rfl, rfl⟩
  | label => exact indexed.of_same ⟨rfl, rfl⟩
  | emit => exact indexed.of_same ⟨rfl, rfl⟩
  | endFunction => exact indexed.of_same ⟨rfl, rfl⟩

theorem changes
    (changes : Changes allowed codeUnit next) :
    next.Indexed :=
  changes.keep change indexed

/-- The index that is answered is the place of the native. -/
theorem getElem?_natives
    {index : UInt16}
    (answered : nativeIndex hash codeUnit = .ok index next) :
    next.natives[index.toNat]? = some hash := by
  have looked : Changes (fun _ => True) codeUnit _ := changes_nativeIndex hash
  have nextIndexed := indexed.changes looked
  rw [answered] at nextIndexed
  exact (nextIndexed.indices hash index).mp (nativeIndices_of_nativeIndex answered)

end Indexed

/-- Hashes that are new and differ from each other are added to the table in order. -/
theorem forM_nativeIndex_eq
    {codeUnit : CodeUnit}
    (indexed : codeUnit.Indexed)
    {hashes : List UInt64}
    (nodup : (codeUnit.natives.toList ++ hashes).Nodup)
    (few : codeUnit.natives.size + hashes.length ≤ maxNatives) :
    ∃ next,
      (hashes.forM fun hash => (do let _ ← nativeIndex hash : UnitM Unit)) codeUnit = .ok () next ∧
      next.Indexed ∧ next.natives = codeUnit.natives ++ hashes ∧
      next.finished = codeUnit.finished ∧ next.current = codeUnit.current := by
  induction hashes generalizing codeUnit with
  | nil => exact ⟨codeUnit, rfl, indexed, by simp, rfl, rfl⟩
  | cons hash rest ih =>
      rw [List.length_cons] at few
      have absent : hash ∉ codeUnit.natives := by
        rw [← Array.mem_toList_iff]
        intro member
        exact (List.nodup_append.mp nodup).2.2 hash member hash List.mem_cons_self rfl
      have room : codeUnit.natives.size < maxNatives := by omega
      have added := indexed.nativeIndex_of_not_mem absent room
      have isNatives : (codeUnit.withNative hash).natives = codeUnit.natives.push hash := rfl
      obtain ⟨next, ran, nextIndexed, nextNatives, nextFinished, nextCurrent⟩ :=
        ih (indexed.withNative absent room) (by simpa [isNatives] using nodup)
          (by rw [isNatives, Array.size_push]; omega)
      refine ⟨next, ?_, nextIndexed, ?_, nextFinished, nextCurrent⟩
      · rw [← ran]
        simp only [List.forM, bind, EStateM.bind, added]
        rfl
      · rw [nextNatives, isNatives]
        simp

end CodeUnit
end ScriptBytecode
