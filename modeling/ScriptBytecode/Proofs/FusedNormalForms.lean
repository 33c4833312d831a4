import Mathlib.Data.List.Basic
import ScriptBytecode.Proofs.FusionLoops

/-!
# Fusing leads to normal forms

When the passes over an arena are over, no rule applies to two neighbouring instructions any more.
A fusion may give an earlier instruction a neighbour to be fused with, but then the passes go on.
Fusing such an arena again changes nothing.
-/

namespace ScriptBytecode
namespace Fusion

/-- The rules in the order in which they are tried. -/
def rules : List (Bytes → Bytes → Option Fusion) :=
  [addressAccess?, arithS16?, arithU8?, mergePushes?, compareJump?]

theorem find?_eq_none_iff {first second : Bytes} :
    find? first second = none ↔ ∀ rule ∈ rules, rule first second = none := by
  simp [find?, rules, Option.orElse_eq_or]

end Fusion

namespace Arena

/-- Instructions of which no two neighbours can be fused by any rule. -/
def Irreducible (entries : List Entry) : Prop :=
  ∀ before first second after, entries = before ++ first :: second :: after →
    second.labels = [] → ∀ rule ∈ Fusion.rules, rule first.bytes second.bytes = none

/-- An arena in which no fusion is found at any position. -/
def Quiet (arena : Arena) : Prop :=
  ∀ position first second fusion, arena.visit position ≠ .fusion first second fusion

namespace Represents

variable {arena : Arena} {live before after : List Live} {first second : Handle}
  {firstEntry secondEntry : Entry} {position : Nat}

variable (represents : arena.Represents (before ++ (first, firstEntry) :: after))

include represents

/-- The live slots after that of an instruction are those of the instructions after it. -/
theorem filter_drop_order
    (atPosition : arena.order[position]? = some first.index) :
    (arena.order.toList.drop (position + 1)).filter (isLive arena.slots) =
      after.map (·.1.index) := by
  obtain ⟨inOrder, isIndex⟩ := Array.getElem?_eq_some_iff.mp atPosition
  have alive : isLive arena.slots first.index = true := by
    simp [isLive, represents.slot_eq]
  have divided := List.take_append_drop position arena.order.toList
  rw [List.drop_eq_getElem_cons (by simpa using inOrder), Array.getElem_toList, isIndex] at divided
  have distinct := represents.nodup
  have sameOrder := represents.order
  rw [← divided] at distinct sameOrder
  rw [List.filter_append, List.filter_cons_of_pos alive, List.map_append, List.map_cons]
    at sameOrder
  obtain ⟨-, afterDistinct, apart⟩ := List.nodup_append.mp distinct
  -- The slot is there once, so both ways of dividing the order at it are the same.
  refine ((List.append_cons_inj_of_notMem ?_ ?_).mp sameOrder).2.2
  · intro member
    exact apart _ (List.mem_of_mem_filter member) _ List.mem_cons_self rfl
  · intro member
    exact (List.nodup_cons.mp afterDistinct).1 (List.mem_of_mem_filter member)

theorem liveAt?_eq
    (atPosition : arena.order[position]? = some first.index) :
    arena.liveAt? position = some first := by
  simp [liveAt?, atPosition, liveSlot?, represents.slot_eq]

/-- Every live instruction stands at a position of the order. -/
theorem exists_position :
    ∃ position : Nat, arena.order[position]? = some first.index := by
  have member : first.index ∈ arena.order.toList.filter (isLive arena.slots) := by
    rw [represents.order]
    simp
  exact Array.mem_iff_getElem?.mp (Array.mem_toList_iff.mp (List.mem_of_mem_filter member))

omit represents

/-- After the last live instruction there are dead slots only. -/
theorem liveAt?_eq_none_of_last
    (represents : arena.Represents (before ++ [(first, firstEntry)]))
    (atPosition : arena.order[position]? = some first.index)
    {later : Nat}
    (isLater : position < later) :
    arena.liveAt? later = none := by
  have noneLive := represents.filter_drop_order atPosition
  rw [List.map_nil, List.filter_eq_nil_iff] at noneLive
  rw [liveAt?, Option.bind_eq_none_iff]
  intro index isIndex
  have member : index ∈ arena.order.toList.drop (position + 1) := by
    apply List.mem_iff_getElem?.mpr
    exact ⟨later - (position + 1), by simpa [Nat.add_sub_cancel' isLater] using isIndex⟩
  have dead := noneLive index member
  rw [← isSome_liveSlot?] at dead
  exact Option.not_isSome_iff_eq_none.mp dead

/-- What a pass finds at a live instruction with another one after it. -/
theorem visit_eq
    (represents :
      arena.Represents (before ++ (first, firstEntry) :: (second, secondEntry) :: after))
    (atPosition : arena.order[position]? = some first.index) :
    arena.visit position =
      match arena.fusion? first second with
      | some fusion => .fusion first second fusion
      | none => .nothing := by
  have inOrder : position < arena.positions := (Array.getElem?_eq_some_iff.mp atPosition).1
  unfold visit
  rw [if_pos inOrder, represents.liveAt?_eq atPosition, represents.nextLive?_eq atPosition]
  rfl

/-- Where a pass ends before the last position, there is no live instruction any more. -/
theorem liveAt?_eq_none_of_passEnds
    (represents : arena.Represents live)
    (ends : arena.visit position = .passEnds)
    {later : Nat}
    (isLater : position < later) :
    arena.liveAt? later = none := by
  unfold visit at ends
  split at ends
  · split at ends
    · cases ends
    · rename_i isFirst
      split at ends
      · rename_i isLast
        obtain ⟨atPosition, before, entry, after, rfl⟩ := represents.divide_of_liveAt? isFirst
        rw [represents.nextLive?_eq atPosition, Option.map_eq_none_iff, List.head?_eq_none_iff]
          at isLast
        subst isLast
        exact represents.liveAt?_eq_none_of_last atPosition isLater
      · split at ends <;> cases ends
  · rename_i outside
    have noIndex : arena.order[later]? = none := by
      apply Array.getElem?_eq_none
      have positions : arena.positions = arena.order.size := rfl
      omega
    simp [liveAt?, noIndex]

/-- An arena is quiet exactly if its instructions cannot be fused any further. -/
theorem quiet_iff (represents : arena.Represents live) :
    arena.Quiet ↔ Irreducible (live.map Prod.snd) := by
  constructor
  · intro quiet before first second after divided noLabel
    obtain ⟨liveBefore, fromFirst, rfl, rfl, isFirst⟩ := List.map_eq_append_iff.mp divided
    obtain ⟨⟨firstHandle, _⟩, fromSecond, rfl, rfl, isSecond⟩ :=
      List.map_eq_cons_iff.mp isFirst
    obtain ⟨⟨secondHandle, _⟩, liveAfter, rfl, rfl, rfl⟩ := List.map_eq_cons_iff.mp isSecond
    obtain ⟨position, atPosition⟩ := represents.exists_position
    have visited := represents.visit_eq atPosition
    rw [← Fusion.find?_eq_none_iff]
    cases found : arena.fusion? firstHandle secondHandle with
    | some fusion =>
        rw [found] at visited
        exact absurd visited (quiet position firstHandle secondHandle fusion)
    | none =>
        dsimp only at noLabel
        simpa [fusion?, represents.get?_eq, represents.shift.get?_eq, noLabel] using found
  · intro irreducible position first second fusion visited
    obtain ⟨isFirst, isSecond, found⟩ := of_visit_eq_fusion visited
    obtain ⟨atPosition, before, entry, after, rfl⟩ := represents.divide_of_liveAt? isFirst
    obtain ⟨other, rest, rfl⟩ := represents.cons_of_nextLive? atPosition isSecond
    obtain ⟨noLabel, isFusion⟩ := represents.fusion?_eq_some found
    have noFusion : Fusion.find? entry.bytes other.bytes = none :=
      Fusion.find?_eq_none_iff.mpr
        (irreducible (before.map Prod.snd) entry other (rest.map Prod.snd) (by simp) noLabel)
    rw [noFusion] at isFusion
    cases isFusion

end Represents
end Arena

open Arena

namespace FusionLoop

variable {loop : FusionLoop}

/-- Between two turns: a pass that has made no fusion so far has found nothing. -/
structure Searched (loop : FusionLoop) : Prop where
  earlier_le : loop.earlier ≤ loop.fusions
  nothing : loop.fusions = loop.earlier →
    ∀ position < loop.position, loop.arena.visit position = .nothing

theorem searched_start (arena : Arena) : Searched (start arena) :=
  ⟨Nat.le_refl _, fun _ position before => absurd before (Nat.not_lt_zero position)⟩

/-- What a turn keeps of the search. -/
theorem Searched.turn
    {next : FusionLoop}
    (searched : Searched loop)
    (turned : loop.turn = some next) :
    Searched next := by
  obtain ⟨arena, position, fusions, earlier⟩ := loop
  obtain ⟨earlierLe, nothing⟩ := searched
  cases visited : arena.visit position with
  | passEnds =>
      simp only [FusionLoop.turn, visited, Option.ite_none_left_eq_some] at turned
      obtain ⟨-, isNext⟩ := turned
      cases isNext
      exact ⟨Nat.le_refl _, fun _ other before => absurd before (Nat.not_lt_zero other)⟩
  | nothing =>
      simp only [FusionLoop.turn, visited] at turned
      cases turned
      refine ⟨earlierLe, fun noFusion other before => ?_⟩
      rcases Nat.lt_succ_iff_lt_or_eq.mp before with searchedBefore | rfl
      · exact nothing noFusion other searchedBefore
      · exact visited
  | fusion first second fusion =>
      simp only [FusionLoop.turn, visited] at turned
      cases turned
      dsimp only at earlierLe
      exact ⟨Nat.le_succ_of_le earlierLe, fun noFusion => by dsimp only at noFusion; omega⟩

/-- What any number of turns keeps of the search. -/
theorem Reaches.searched
    {last : FusionLoop}
    (reaches : Reaches loop last)
    (searched : Searched loop) :
    Searched last := by
  induction reaches with
  | refl => exact searched
  | tail _ turned ih => exact ih.turn turned

/-- Loops that are over leave a quiet arena. -/
theorem Searched.quiet
    (searched : Searched loop)
    (ended : loop.turn = none)
    {live : List Live}
    (represents : loop.arena.Represents live) :
    loop.arena.Quiet := by
  obtain ⟨arena, stop, fusions, earlier⟩ := loop
  obtain ⟨-, nothing⟩ := searched
  intro position first second fusion visited
  cases visitedLast : arena.visit stop with
  | nothing | fusion _ _ _ =>
      simp only [FusionLoop.turn, visitedLast] at ended
      cases ended
  | passEnds =>
      simp only [FusionLoop.turn, visitedLast, ite_eq_left_iff, reduceCtorEq, imp_false,
        Decidable.not_not] at ended
      rcases Nat.lt_trichotomy position stop with before | rfl | after
      · rw [nothing ended position before] at visited
        cases visited
      · rw [visitedLast] at visited
        cases visited
      · have dead := represents.liveAt?_eq_none_of_passEnds visitedLast after
        rw [(of_visit_eq_fusion visited).1] at dead
        cases dead

end FusionLoop

namespace Arena

open FusionLoop

variable {arena : Arena}

/-- A pass over a quiet arena changes nothing. -/
theorem Quiet.fusePass
    (quiet : arena.Quiet)
    (steps position fusions : Nat) :
    arena.fusePass steps position fusions = (arena, fusions) := by
  induction steps generalizing position with
  | zero => rfl
  | succ steps ih =>
      rw [fusePass_succ]
      cases visited : arena.visit position with
      | passEnds => rfl
      | nothing => exact ih (position + 1)
      | fusion first second fusion => exact absurd visited (quiet position first second fusion)

/-- Fusing a quiet arena only compacts it. -/
theorem Quiet.fuse (quiet : arena.Quiet) : arena.fuse = (arena.compact, 0) := by
  simp only [Arena.fuse, fusePasses, quiet.fusePass, if_true]

/-- After compaction every slot of the order is live. -/
theorem isSome_liveSlot?_of_mem_compact
    {index : Nat}
    (inOrder : index ∈ arena.compact.order) :
    (arena.compact.liveSlot? index).isSome = true :=
  (Array.mem_filter.mp inOrder).2

/-- An arena without dead slots in its order is compact. -/
theorem compact_eq_self
    (live : ∀ index ∈ arena.order, (arena.liveSlot? index).isSome = true) :
    arena.compact = arena := by
  have kept : arena.order.filter (fun index => (arena.liveSlot? index).isSome) = arena.order :=
    Array.filter_eq_self.mpr live
  have noneDead : arena.order.filter (fun index => !(arena.liveSlot? index).isSome) = #[] :=
    Array.filter_eq_empty_iff.mpr fun index inOrder => by simp [live index inOrder]
  simp only [compact, kept, noneDead, List.foldl_toArray]
  rfl

/-- A normal form of fusing. -/
structure IsNormal (arena : Arena) : Prop where
  /-- No rule applies to two neighbours. -/
  irreducible : Irreducible arena.entries.toList
  /-- The order holds no dead slot. -/
  live : ∀ position < arena.positions, (arena.liveAt? position).isSome = true
  /-- Fusing makes no fusion and leaves everything as it is. -/
  fixed : arena.fuse = (arena, 0)

/-- Fusing a reachable arena gives a normal form. -/
theorem isNormal_fuse
    (reachable : Reachable arena) :
    IsNormal arena.fuse.1 := by
  obtain ⟨live, represents⟩ := reachable.exists_represents
  obtain ⟨last, reaches, ended, isResult⟩ := exists_reaches_fuse represents
  obtain ⟨-, others, othersRepresents, -⟩ := reaches.represents represents
  have quiet : last.arena.Quiet :=
    (reaches.searched (searched_start arena)).quiet ended othersRepresents
  have compacted := othersRepresents.compact
  have irreducible := othersRepresents.quiet_iff.mp quiet
  rw [isResult]
  refine ⟨?_, ?_, ?_⟩
  · rwa [compacted.entries_eq]
  · intro position inOrder
    rw [liveAt?, Array.getElem?_eq_getElem inOrder]
    exact isSome_liveSlot?_of_mem_compact (Array.getElem_mem inOrder)
  · rw [(compacted.quiet_iff.mpr irreducible).fuse,
      compact_eq_self fun _ => isSome_liveSlot?_of_mem_compact]

/-- A pushed byte, two more pushed at once and an addition, with a removed instruction between
them. -/
def splitPushes : Arena :=
  [Call.push ⟨#[Opcode.pushConstU8.toByte, 1], [], ["top"]⟩,
    .push ⟨#[Opcode.nop.toByte], [], []⟩,
    .push ⟨#[Opcode.pushConstU8U8.toByte, 2, 3], [], []⟩,
    .push ⟨#[Opcode.iadd.toByte], [], []⟩,
    .remove ⟨1, 0⟩].foldl afterCall {}

/-- The addition takes the last byte, and only then can the pushes before it be merged, which the
first pass has left behind. -/
theorem isNormal_fuse_splitPushes :
    (splitPushes.fusePass 10 0 0).2 = 1 ∧ splitPushes.fuse.2 = 2 ∧
      splitPushes.positions = 4 ∧ splitPushes.fuse.1.positions = 2 ∧
      IsNormal splitPushes.fuse.1 :=
  ⟨by decide +kernel, by decide +kernel, by decide +kernel, by decide +kernel,
    isNormal_fuse (Reachable.empty.calls _)⟩

end Arena
end ScriptBytecode
