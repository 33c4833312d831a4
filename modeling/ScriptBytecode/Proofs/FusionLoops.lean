import Mathlib.Data.List.Perm.Subperm
import ScriptBytecode.Proofs.FusionRules
import ScriptBytecode.Proofs.ReachableArenas

/-!
# Fusing terminates

Passes over an arena are made until one of them finds nothing to fuse.  Each fusion removes an
instruction or gives a plain addition or multiplication its immediate, and none makes the code
longer.  So the passes come to an end even if nothing bounds them, and the bounds of `Arena.fuse`
never cut them short.
-/

namespace ScriptBytecode

theorem size_pos_of_opcodeOf?
    {bytes : Bytes} {opcode : Opcode}
    (isOpcode : opcodeOf? bytes = some opcode) :
    0 < bytes.size := by
  obtain ⟨byte, isByte, -⟩ := Option.bind_eq_some_iff.mp isOpcode
  exact (Array.getElem?_eq_some_iff.mp isByte).1

/-! ## What fusions leave -/

namespace Fusion

open Arena (isPlainArith)

theorem opcodeOf?_withOpcode
    {bytes : Bytes} {opcode : Opcode}
    (isOpcode : opcodeOf? bytes = some opcode)
    (other : Opcode) :
    opcodeOf? (withOpcode bytes other) = some other := by
  simp [opcodeOf?, withOpcode, size_pos_of_opcodeOf? isOpcode]

theorem opcodeOf?_cons (opcode : Opcode) (rest : List UInt8) :
    opcodeOf? (opcode.toByte :: rest).toArray = some opcode := by
  simp [opcodeOf?]

/-- A fusion that leaves fewer instructions or fewer plain additions and multiplications, and no
more bytes. -/
def Shrinks (first second : Bytes) : Fusion → Prop
  | .intoFirst bytes | .intoSecond bytes =>
    isPlainArith (opcodeOf? bytes) = false ∧ bytes.size ≤ first.size + second.size
  | .both newFirst newSecond =>
    isPlainArith (opcodeOf? newFirst) = false ∧ isPlainArith (opcodeOf? newSecond) = false ∧
      isPlainArith (opcodeOf? second) = true ∧
      newFirst.size + newSecond.size ≤ first.size + second.size

variable {first second : Bytes} {fusion : Fusion}

theorem addressAccess?_shrinks
    (found : addressAccess? first second = some fusion) :
    fusion.Shrinks first second := by
  simp only [addressAccess?, Option.bind_eq_bind, Option.bind_eq_some_iff] at found
  obtain ⟨access, isAccess, opcode, isOpcode, fused, isFused, isFusion⟩ := found
  cases isFusion
  obtain ⟨⟨loading, storing⟩, variants, rfl⟩ := Option.map_eq_some_iff.mp isFused
  obtain ⟨kind, isPush, isLoading, isStoring, -⟩ := accessVariants?_eq_some variants
  have notPlain : ∀ {other : Opcode} {form}, other.addressForm? = some form →
      isPlainArith (some other) = false := by
    intro other form isForm
    cases other <;> first | rfl | cases isForm
  refine ⟨?_, by simp [withOpcode]⟩
  rw [opcodeOf?_withOpcode isOpcode]
  cases access with
  | none => exact notPlain isPush
  | load => exact notPlain isLoading
  | store => exact notPlain isStoring

/-- What is known of an arithmetic opcode and its immediate form. -/
theorem isPlainArith_of_withImmediate?
    {opcode fused : Opcode} {layout : OperandLayout}
    (isFused : opcode.withImmediate? layout = some fused) :
    isPlainArith (some opcode) = true ∧ isPlainArith (some fused) = false := by
  unfold Opcode.withImmediate? at isFused
  split at isFused <;> cases isFused <;> exact ⟨rfl, rfl⟩

theorem arithS16?_shrinks
    (found : arithS16? first second = some fusion) :
    fusion.Shrinks first second := by
  simp only [arithS16?, Option.bind_eq_bind, Option.bind_eq_some_iff,
    Option.ite_none_right_eq_some] at found
  obtain ⟨arith, isArith, fused, isFused, isPush, isFusion⟩ := found
  cases isFusion
  refine ⟨?_, by simp [withOpcode]⟩
  rw [opcodeOf?_withOpcode isPush]
  exact (isPlainArith_of_withImmediate? isFused).2

theorem arithU8?_shrinks
    (found : arithU8? first second = some fusion) :
    fusion.Shrinks first second := by
  simp only [arithU8?, Option.bind_eq_bind, Option.bind_eq_some_iff] at found
  obtain ⟨arith, isArith, fused, isFused, opcode, isOpcode, found⟩ := found
  obtain ⟨plain, fusedNotPlain⟩ := isPlainArith_of_withImmediate? isFused
  have firstSize := size_pos_of_opcodeOf? isOpcode
  have secondSize := size_pos_of_opcodeOf? isArith
  have notPlain : ∀ rest, isPlainArith (opcodeOf? (fused.toByte :: rest).toArray) = false := by
    intro rest
    rwa [opcodeOf?_cons]
  split at found
  · simp only [Option.bind_eq_some_iff] at found
    obtain ⟨value, isValue, isFusion⟩ := found
    cases isFusion
    have inFirst := (Array.getElem?_eq_some_iff.mp isValue).1
    exact ⟨notPlain _, by simp; omega⟩
  · simp only [Option.bind_eq_some_iff] at found
    obtain ⟨value0, -, value1, isValue, isFusion⟩ := found
    cases isFusion
    have inFirst := (Array.getElem?_eq_some_iff.mp isValue).1
    exact ⟨by rw [opcodeOf?_cons]; rfl, notPlain _, by rwa [isArith], by simp; omega⟩
  · simp only [Option.bind_eq_some_iff] at found
    obtain ⟨value0, -, value1, -, value2, isValue, isFusion⟩ := found
    cases isFusion
    have inFirst := (Array.getElem?_eq_some_iff.mp isValue).1
    exact ⟨by rw [opcodeOf?_cons]; rfl, notPlain _, by rwa [isArith], by simp; omega⟩
  · simp only [Option.bind_eq_some_iff, Option.ite_none_right_eq_some] at found
    obtain ⟨value, -, -, isFusion⟩ := found
    cases isFusion
    exact ⟨notPlain _, by simp; omega⟩

theorem mergePushes?_shrinks
    (found : mergePushes? first second = some fusion) :
    fusion.Shrinks first second := by
  simp only [mergePushes?, Option.bind_eq_bind, Option.bind_eq_some_iff,
    Option.ite_none_right_eq_some] at found
  obtain ⟨opcode, isOpcode, merged, isMerged, isPush, value, isValue, isFusion⟩ := found
  cases isFusion
  have inSecond := (Array.getElem?_eq_some_iff.mp isValue).1
  have notEmpty := size_pos_of_opcodeOf? isOpcode
  have isNew : opcodeOf? ((withOpcode first merged).push value) = some merged := by
    rw [opcodeOf?, Array.getElem?_push, if_neg (by simp [withOpcode]; omega)]
    exact opcodeOf?_withOpcode isOpcode merged
  refine ⟨?_, by simp [withOpcode]; omega⟩
  rw [isNew]
  unfold pushOneMore? at isMerged
  split at isMerged <;> cases isMerged <;> rfl

theorem compareJump?_shrinks
    (found : compareJump? first second = some fusion) :
    fusion.Shrinks first second := by
  simp only [compareJump?, Option.bind_eq_bind, Option.bind_eq_some_iff,
    Option.ite_none_right_eq_some] at found
  obtain ⟨compare, -, fused, isFused, isJump, isFusion⟩ := found
  cases isFusion
  refine ⟨?_, by simp [withOpcode]⟩
  rw [opcodeOf?_withOpcode isJump]
  unfold Opcode.compareJump? at isFused
  split at isFused <;> cases isFused <;> rfl

/-- Every fusion of two instructions shrinks them. -/
theorem find?_shrinks
    (found : find? first second = some fusion) :
    fusion.Shrinks first second := by
  rcases rule_of_find? found with access | s16 | u8 | pushes | jump
  · exact addressAccess?_shrinks access
  · exact arithS16?_shrinks s16
  · exact arithU8?_shrinks u8
  · exact mergePushes?_shrinks pushes
  · exact compareJump?_shrinks jump

end Fusion

namespace Arena

variable {arena : Arena} {position : Nat}

/-- Number of instructions, with plain additions and multiplications counted twice. -/
def fusionWeight (entries : List Entry) : Nat :=
  entries.length + entries.countP fun entry => isPlainArith (opcodeOf? entry.bytes)

/-- Number of bytes of instructions. -/
def byteCount (entries : List Entry) : Nat :=
  (entries.map fun entry => entry.bytes.size).sum

theorem fusionWeight_append (entries others : List Entry) :
    fusionWeight (entries ++ others) = fusionWeight entries + fusionWeight others := by
  simp only [fusionWeight, List.length_append, List.countP_append]
  omega

theorem fusionWeight_cons (entry : Entry) (rest : List Entry) :
    fusionWeight (entry :: rest) =
      (if isPlainArith (opcodeOf? entry.bytes) then 2 else 1) + fusionWeight rest := by
  simp only [fusionWeight, List.length_cons, List.countP_cons]
  split <;> omega

theorem byteCount_append (entries others : List Entry) :
    byteCount (entries ++ others) = byteCount entries + byteCount others := by
  simp [byteCount]

theorem byteCount_cons (entry : Entry) (rest : List Entry) :
    byteCount (entry :: rest) = entry.bytes.size + byteCount rest := by
  simp [byteCount]

/-- A fusion makes instructions lighter and not longer. -/
theorem FusionStep.shrinks
    {entries others : List Entry}
    (step : FusionStep entries others) :
    fusionWeight others < fusionWeight entries ∧ byteCount others ≤ byteCount entries := by
  cases step with
  | intoFirst before after noLabel found | intoSecond before after noLabel found =>
      obtain ⟨notPlain, size⟩ := Fusion.find?_shrinks found
      simp only [fusionWeight_append, fusionWeight_cons, byteCount_append, byteCount_cons, notPlain]
      constructor <;> grind
  | both before after noLabel found =>
      obtain ⟨firstNotPlain, secondNotPlain, wasPlain, size⟩ := Fusion.find?_shrinks found
      simp only [fusionWeight_append, fusionWeight_cons, byteCount_append, byteCount_cons,
        firstNotPlain, secondNotPlain, wasPlain]
      constructor <;> grind

/-- The number of bytes of the code. -/
theorem Represents.size_code
    {live : List Live}
    (represents : arena.Represents live) :
    arena.code.size = byteCount (live.map Prod.snd) := by
  rw [← Array.length_toList, represents.code_eq, List.length_flatMap]
  simp [byteCount, Function.comp_def]

theorem fusionWeight_toList (entries : Array Entry) :
    fusionWeight entries.toList = entries.size +
      (entries.filter fun entry => isPlainArith (opcodeOf? entry.bytes)).size := by
  simp [fusionWeight, List.countP_eq_length_filter, ← Array.length_toList]

/-- The bound for the number of fusions counts every live instruction. -/
theorem Represents.fusionWeight_le
    {live : List Live}
    (represents : arena.Represents live) :
    fusionWeight (live.map Prod.snd) ≤ arena.fusionBound := by
  have isHeld : (live.map (·.1.index)).filterMap
      (fun index => arena.slots[index]?.bind Slot.entry) = live.map Prod.snd := by
    rw [List.filterMap_map, ← List.filterMap_eq_map]
    apply List.filterMap_congr
    intro item member
    obtain ⟨_, _, slot⟩ := represents.chain.slot_eq member
    simp [slot]
  have inRange : live.map (·.1.index) ⊆ List.range arena.slots.size := by
    intro index member
    obtain ⟨item, isItem, rfl⟩ := List.mem_map.mp member
    obtain ⟨_, _, slot⟩ := represents.chain.slot_eq isItem
    exact List.mem_range.mpr (Array.getElem?_eq_some_iff.mp slot).1
  have held : (live.map Prod.snd).Subperm (arena.slots.filterMap Slot.entry).toList := by
    obtain ⟨indices, reordered, sublist⟩ :=
      List.subperm_of_subset represents.indices_nodup inRange
    have slotwise := filterMap_range_getElem? arena.slots.toList Slot.entry
    simp only [Array.length_toList, Array.getElem?_toList] at slotwise
    rw [Array.toList_filterMap, ← slotwise, ← isHeld]
    exact ⟨_, reordered.filterMap _, sublist.filterMap _⟩
  calc fusionWeight (live.map Prod.snd)
      ≤ fusionWeight (arena.slots.filterMap Slot.entry).toList :=
        Nat.add_le_add held.length_le (held.countP_le _)
    _ = arena.fusionBound := fusionWeight_toList _

/-! ## Passes without a bound -/

/-- What a pass finds at a position. -/
inductive Visit where
  /-- No two instructions are left to be tried. -/
  | passEnds
  /-- Nothing to fuse at this position. -/
  | nothing
  | fusion (first second : Handle) (fusion : Fusion)

/-- Looks for a fusion at a position of the order. -/
def visit (arena : Arena) (position : Nat) : Visit :=
  if position < arena.positions then
    match arena.liveAt? position with
    | none => .nothing
    | some first =>
      match arena.nextLive? position with
      | none => .passEnds
      | some second =>
        match arena.fusion? first second with
        | some fusion => .fusion first second fusion
        | none => .nothing
  else .passEnds

/-- A step of a pass does what the visit of its position calls for. -/
theorem fusePass_succ (steps position fusions : Nat) (arena : Arena) :
    arena.fusePass (steps + 1) position fusions =
      match arena.visit position with
      | .passEnds => (arena, fusions)
      | .nothing => arena.fusePass steps (position + 1) fusions
      | .fusion first second fusion =>
        (arena.applyFusion first second fusion).fusePass steps position (fusions + 1) := by
  unfold visit
  rw [fusePass]
  split
  · cases arena.liveAt? position with
    | none => rfl
    | some first =>
        cases arena.nextLive? position with
        | none => rfl
        | some second =>
            dsimp only
            cases arena.fusion? first second <;> rfl
  · rfl

theorem visit_of_positions_le
    (after : arena.positions ≤ position) :
    arena.visit position = .passEnds := by
  unfold visit
  rw [if_neg (by omega)]

theorem lt_positions_of_visit
    (visited : arena.visit position ≠ .passEnds) :
    position < arena.positions := by
  by_contra after
  exact visited (visit_of_positions_le (by omega))

/-- A fusion that is found is one of the live instruction at the position and the next one. -/
theorem of_visit_eq_fusion
    {first second : Handle} {fusion : Fusion}
    (visited : arena.visit position = .fusion first second fusion) :
    arena.liveAt? position = some first ∧ arena.nextLive? position = some second ∧
      arena.fusion? first second = some fusion := by
  unfold visit at visited
  split at visited
  · split at visited
    · cases visited
    · rename_i isFirst
      split at visited
      · cases visited
      · rename_i isSecond
        split at visited
        · rename_i found
          cases visited
          exact ⟨isFirst, isSecond, found⟩
        · cases visited
  · cases visited

end Arena

open Arena

/-- The loops that fuse the instructions of an arena, between two turns. -/
structure FusionLoop where
  arena : Arena
  /-- The position that is tried next. -/
  position : Nat
  /-- The fusions made so far. -/
  fusions : Nat
  /-- The fusions made before this pass. -/
  earlier : Nat

namespace FusionLoop

variable {arena : Arena} {live : List Live}

/-- The state in which the loops begin. -/
def start (arena : Arena) : FusionLoop :=
  ⟨arena, 0, 0, 0⟩

/-- One turn of the loops, unless they are over.  After a fusion the same position is tried again,
and a pass that has made a fusion is followed by another one.  The loops have no other bound. -/
def turn : FusionLoop → Option FusionLoop
  | ⟨arena, position, fusions, earlier⟩ =>
    match arena.visit position with
    | .passEnds => if fusions = earlier then none else some ⟨arena, 0, fusions, fusions⟩
    | .nothing => some ⟨arena, position + 1, fusions, earlier⟩
    | .fusion first second fusion =>
      some ⟨arena.applyFusion first second fusion, position, fusions + 1, earlier⟩

/-- The loops lead from one state to another in any number of turns. -/
abbrev Reaches : FusionLoop → FusionLoop → Prop :=
  Relation.ReflTransGen fun loop next => loop.turn = some next

/-- What a turn does to the instructions: it leaves the order and makes them lighter by the fusions
it carries out. -/
theorem represents_turn
    {loop next : FusionLoop}
    (turned : loop.turn = some next)
    (represents : loop.arena.Represents live) :
    next.arena.positions = loop.arena.positions ∧
      ∃ others, next.arena.Represents others ∧
        fusionWeight (others.map Prod.snd) + next.fusions ≤
          fusionWeight (live.map Prod.snd) + loop.fusions ∧
        byteCount (others.map Prod.snd) ≤ byteCount (live.map Prod.snd) := by
  obtain ⟨arena, position, fusions, earlier⟩ := loop
  cases visited : arena.visit position with
  | passEnds =>
      simp only [turn, visited, Option.ite_none_left_eq_some] at turned
      obtain ⟨-, isNext⟩ := turned
      cases isNext
      exact ⟨rfl, live, represents, Nat.le_refl _, Nat.le_refl _⟩
  | nothing =>
      simp only [turn, visited] at turned
      cases turned
      exact ⟨rfl, live, represents, Nat.le_refl _, Nat.le_refl _⟩
  | fusion first second fusion =>
      simp only [turn, visited] at turned
      cases turned
      obtain ⟨isFirst, isSecond, found⟩ := of_visit_eq_fusion visited
      obtain ⟨atPosition, before, entry, after, rfl⟩ := represents.divide_of_liveAt? isFirst
      obtain ⟨other, rest, rfl⟩ := represents.cons_of_nextLive? atPosition isSecond
      obtain ⟨others, othersRepresents, step, -⟩ := represents.applyFusion found
      have shrinks := step.shrinks
      have order := (Thins.applyFusion arena first second fusion).order
      refine ⟨congrArg Array.size order, others, othersRepresents, ?_, shrinks.2⟩
      have lighter := shrinks.1
      dsimp only
      omega

/-- What any number of turns does to the instructions. -/
theorem Reaches.represents
    {loop last : FusionLoop}
    (reaches : Reaches loop last)
    (represents : loop.arena.Represents live) :
    last.arena.positions = loop.arena.positions ∧
      ∃ others, last.arena.Represents others ∧
        fusionWeight (others.map Prod.snd) + last.fusions ≤
          fusionWeight (live.map Prod.snd) + loop.fusions ∧
        byteCount (others.map Prod.snd) ≤ byteCount (live.map Prod.snd) := by
  induction reaches with
  | refl => exact ⟨rfl, live, represents, Nat.le_refl _, Nat.le_refl _⟩
  | tail _ turned ih =>
      obtain ⟨samePositions, middle, middleRepresents, lighter, shorter⟩ := ih
      obtain ⟨nextPositions, others, othersRepresents, nextLighter, nextShorter⟩ :=
        represents_turn turned middleRepresents
      exact ⟨nextPositions.trans samePositions, others, othersRepresents,
        Nat.le_trans nextLighter lighter, Nat.le_trans nextShorter shorter⟩

/-- A bounded pass with enough steps is a pass of the loops. -/
theorem reaches_fusePass
    (represents : arena.Represents live)
    (steps position : Nat)
    (enough : fusionWeight (live.map Prod.snd) + (arena.positions - position) ≤ steps)
    (fusions earlier : Nat) :
    ∃ stop, (arena.fusePass steps position fusions).1.visit stop = .passEnds ∧
      Reaches ⟨arena, position, earlier + fusions, earlier⟩
        ⟨(arena.fusePass steps position fusions).1, stop,
          earlier + (arena.fusePass steps position fusions).2, earlier⟩ := by
  induction steps generalizing arena live position fusions with
  | zero =>
      have after : arena.positions ≤ position := by omega
      exact ⟨position, visit_of_positions_le after, .refl⟩
  | succ steps ih =>
      rw [fusePass_succ]
      cases visited : arena.visit position with
      | passEnds => exact ⟨position, visited, .refl⟩
      | nothing =>
          have inOrder : position < arena.positions := lt_positions_of_visit (by simp [visited])
          obtain ⟨stop, ends, reaches⟩ :=
            ih represents (position + 1) (by omega) fusions
          exact ⟨stop, ends, .head (by simp only [turn, visited]) reaches⟩
      | fusion first second fusion =>
          have turned : turn ⟨arena, position, earlier + fusions, earlier⟩ =
              some ⟨arena.applyFusion first second fusion, position,
                earlier + (fusions + 1), earlier⟩ := by
            simp only [turn, visited]
            rfl
          obtain ⟨samePositions, others, othersRepresents, lighter, -⟩ :=
            represents_turn turned represents
          dsimp only at samePositions othersRepresents lighter
          obtain ⟨stop, ends, reaches⟩ :=
            ih othersRepresents position (by omega) (fusions + 1)
          exact ⟨stop, ends, .head turned reaches⟩

/-- Bounded passes in sufficient number, with enough steps each, are the loops to their end. -/
theorem reaches_fusePasses
    (represents : arena.Represents live)
    (stepsPerPass passes : Nat)
    (enoughSteps : fusionWeight (live.map Prod.snd) + arena.positions ≤ stepsPerPass)
    (enoughPasses : fusionWeight (live.map Prod.snd) < passes)
    (fusions : Nat) :
    ∃ last, Reaches ⟨arena, 0, fusions, fusions⟩ last ∧ last.turn = none ∧
      arena.fusePasses stepsPerPass passes fusions = (last.arena, last.fusions) := by
  induction passes generalizing arena live fusions with
  | zero => omega
  | succ passes ih =>
      obtain ⟨stop, ends, reaches⟩ :=
        reaches_fusePass represents stepsPerPass 0 (by omega) 0 fusions
      rw [Nat.add_zero] at reaches
      rcases passed : arena.fusePass stepsPerPass 0 0 with ⟨fused, made⟩
      rw [passed] at ends reaches
      simp only [fusePasses, passed]
      split
      · rename_i noFusion
        refine ⟨_, reaches, ?_, ?_⟩
        · simp only [turn, ends, noFusion, Nat.add_zero, if_true]
        · simp only [noFusion, Nat.add_zero]
      · rename_i someFusion
        obtain ⟨samePositions, others, othersRepresents, lighter, -⟩ :=
          reaches.represents represents
        dsimp only at samePositions othersRepresents lighter
        obtain ⟨last, more, ended, isResult⟩ := ih othersRepresents
          (by omega) (by omega) (fusions + made)
        have turned : turn ⟨fused, stop, fusions + made, fusions⟩ =
            some ⟨fused, 0, fusions + made, fusions + made⟩ := by
          simp only [turn, ends]
          rw [if_neg (by omega)]
        exact ⟨last, reaches.trans (.head turned more), ended, isResult⟩

/-- The loops that fuse an arena come to an end, with the result of fusing it. -/
theorem exists_reaches_fuse
    (represents : arena.Represents live) :
    ∃ last, Reaches (start arena) last ∧ last.turn = none ∧
      arena.fuse = (last.arena.compact, last.fusions) := by
  have bounded := represents.fusionWeight_le
  obtain ⟨last, reaches, ended, isResult⟩ := reaches_fusePasses represents
    (arena.positions + arena.fusionBound) (arena.fusionBound + 1) (by omega) (by omega) 0
  exact ⟨last, reaches, ended, by simp only [fuse, isResult]⟩

end FusionLoop

namespace Arena

open FusionLoop

/-- Fusing an arena terminates with a bounded number of fusions and does not lengthen the code. -/
structure FusionTerminates (arena : Arena) : Prop where
  /-- The loops come to an end with the result of `fuse`. -/
  halts : ∃ last, Reaches (start arena) last ∧ last.turn = none ∧
    arena.fuse = (last.arena.compact, last.fusions)
  /-- Every instruction counts once, and plain additions and multiplications once more. -/
  fusions : arena.fuse.2 ≤ arena.entries.size +
    (arena.entries.filter fun entry => isPlainArith (opcodeOf? entry.bytes)).size
  /-- No turn makes the code longer. -/
  turns : ∀ loop next, Reaches (start arena) loop → loop.turn = some next →
    next.arena.code.size ≤ loop.arena.code.size
  size : arena.fuse.1.code.size ≤ arena.code.size

/-- Fusing terminates for every reachable arena. -/
theorem fusionTerminates_of_reachable
    {arena : Arena}
    (reachable : Reachable arena) :
    FusionTerminates arena := by
  obtain ⟨live, represents⟩ := reachable.exists_represents
  obtain ⟨last, reaches, ended, isResult⟩ := exists_reaches_fuse represents
  obtain ⟨-, others, othersRepresents, lighter, shorter⟩ := reaches.represents represents
  refine ⟨⟨last, reaches, ended, isResult⟩, ?_, ?_, ?_⟩
  · rw [isResult, ← fusionWeight_toList, represents.entries_eq]
    exact Nat.le_trans (Nat.le_add_left _ _) lighter
  · intro loop next reached turned
    obtain ⟨-, middle, middleRepresents, -⟩ := reached.represents represents
    obtain ⟨-, nextLive, nextRepresents, -, nextShorter⟩ :=
      represents_turn turned middleRepresents
    rwa [nextRepresents.size_code, middleRepresents.size_code]
  · rw [isResult, othersRepresents.compact.size_code, represents.size_code]
    exact shorter

/-- Three byte pushes and an addition, with a removed instruction between them. -/
def pushedSum : Arena :=
  [Call.push ⟨#[Opcode.pushConstU8.toByte, 1], [], ["top"]⟩,
    .push ⟨#[Opcode.nop.toByte], [], []⟩,
    .push ⟨#[Opcode.pushConstU8.toByte, 2], [], []⟩,
    .push ⟨#[Opcode.pushConstU8.toByte, 3], [], []⟩,
    .push ⟨#[Opcode.iadd.toByte], [], []⟩,
    .remove ⟨1, 0⟩].foldl afterCall {}

/-- The pushes are merged to one, and its last byte becomes the immediate of the addition: the third
fusion removes no instruction. -/
theorem fusionTerminates_pushedSum :
    (pushedSum.positions = 5 ∧ pushedSum.entries.size = 4 ∧ pushedSum.fuse.2 = 3 ∧
        pushedSum.fuse.1.entries.size = 2) ∧
      FusionTerminates pushedSum :=
  ⟨by decide +kernel, fusionTerminates_of_reachable (Reachable.empty.calls _)⟩

end Arena
end ScriptBytecode
