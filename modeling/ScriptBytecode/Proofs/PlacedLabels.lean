import Mathlib.Data.List.Perm.Basic
import ScriptBytecode.Proofs.ReachableArenas

/-!
# The program points of labels

`Arena.Placing` is a record of what was placed in an arena, without slots: labels and the
instructions that were not removed, in program order.  Each label of the record stands for the first
instruction behind it.  The one exception are stranded labels: those that were left behind the last
instruction by removals stay there when another instruction is appended.
-/

namespace ScriptBytecode
namespace Arena

/-- A call that places or removes something. -/
inductive Edit
  | push (entry : Entry)
  | addLabel (label : String)
  | remove (handle : Handle)
  | compact

/-- The labels that an edit places. -/
def Edit.labels : Edit → List String
  | .push entry => entry.labels
  | .addLabel label => [label]
  | .remove _ => []
  | .compact => []

/-- What stands at a point of a program. -/
inductive Mark
  | label (name : String)
  /-- A label that does not stand for the instruction behind it. -/
  | stranded (name : String)
  | instruction (handle : Handle)
deriving DecidableEq

namespace Mark

def isInstruction : Mark → Bool
  | .instruction _ => true
  | _ => false

/-- The name of a label that is not stranded. -/
def label? : Mark → Option String
  | .label name => some name
  | _ => none

/-- The name of a stranded label. -/
def stranded? : Mark → Option String
  | .stranded name => some name
  | _ => none

end Mark

/-- The instructions of a program with the labels that stand for them, and the labels behind the
last one: each label waits for the next instruction. -/
def attach : (waiting : List String) → List Mark → List (Handle × List String) × List String
  | waiting, [] => ([], waiting)
  | waiting, .label name :: rest => attach (waiting ++ [name]) rest
  | waiting, .stranded _ :: rest => attach waiting rest
  | waiting, .instruction handle :: rest =>
    let (later, final) := attach [] rest
    ((handle, waiting) :: later, final)

/-- A program whose labels behind the last instruction are stranded. -/
def strandFinal : List Mark → List Mark
  | [] => []
  | .label name :: rest =>
    (if rest.any Mark.isInstruction then .label name else .stranded name) :: strandFinal rest
  | mark :: rest => mark :: strandFinal rest

/-- What was placed and not removed. -/
structure Placing where
  marks : List Mark := []
  /-- Labels for the next instruction. -/
  pending : List String := []
  /-- The stranded labels, those that were stranded last coming first. -/
  stranded : List String := []

namespace Placing

/-- The instructions and the labels that stand for them. -/
def attached (placing : Placing) : List (Handle × List String) :=
  (attach [] placing.marks).1

/-- The labels behind the last instruction that are not stranded yet. -/
def final (placing : Placing) : List String :=
  (attach [] placing.marks).2

def push (placing : Placing) (handle : Handle) (labels : List String) : Placing where
  marks := strandFinal placing.marks ++
    ((labels ++ placing.pending).map .label ++ [.instruction handle])
  pending := []
  stranded := placing.final ++ placing.stranded

def addLabel (placing : Placing) (label : String) : Placing :=
  { placing with pending := placing.pending ++ [label] }

def remove (placing : Placing) (handle : Handle) : Placing :=
  { placing with marks := placing.marks.erase (.instruction handle) }

/-- Makes an edit and records it.  The record takes from the arena only the handles that pushes
answer. -/
def perform (state : Arena × Placing) : Edit → Arena × Placing
  | .push entry =>
    let (handle, arena) := state.1.push entry
    (arena, state.2.push handle entry.labels)
  | .addLabel label => (state.1.addLabel label, state.2.addLabel label)
  | .remove handle => ((state.1.remove handle).2, state.2.remove handle)
  | .compact => (state.1.compact, state.2)

/-- The arena and the record after edits of an arena without slots. -/
def run (edits : List Edit) : Arena × Placing :=
  edits.foldl perform ({}, {})

end Placing

/-! ## Attaching labels -/

/-- Labels that wait before a program come to the first instruction, or behind the last one. -/
theorem attach_eq (waiting : List String) (marks : List Mark) :
    attach waiting marks =
      match (attach [] marks).1 with
      | [] => ([], waiting ++ (attach [] marks).2)
      | (handle, labels) :: later =>
        ((handle, waiting ++ labels) :: later, (attach [] marks).2) := by
  induction marks generalizing waiting with
  | nil => simp [attach]
  | cons mark rest ih =>
      cases mark with
      | label name =>
          simp only [attach, List.nil_append]
          rw [ih (waiting ++ [name]), ih [name]]
          cases (attach [] rest).1 <;> simp
      | stranded name => exact ih waiting
      | instruction handle => simp [attach]

theorem attach_append (waiting : List String) (front back : List Mark) :
    attach waiting (front ++ back) =
      ((attach waiting front).1 ++ (attach (attach waiting front).2 back).1,
        (attach (attach waiting front).2 back).2) := by
  induction front generalizing waiting with
  | nil => simp [attach]
  | cons mark rest ih =>
      cases mark <;> simp [attach, ih]

theorem attach_labels (waiting labels : List String) (rest : List Mark) :
    attach waiting (labels.map .label ++ rest) = attach (waiting ++ labels) rest := by
  induction labels generalizing waiting with
  | nil => simp
  | cons name names ih => simp [attach, ih]

/-- No instruction gets a label of a program without instructions. -/
theorem attach_fst_of_any_eq_false
    {marks : List Mark}
    (noInstruction : marks.any Mark.isInstruction = false)
    (waiting : List String) :
    (attach waiting marks).1 = [] := by
  induction marks generalizing waiting with
  | nil => rfl
  | cons mark rest ih =>
      rw [List.any_cons, Bool.or_eq_false_iff] at noInstruction
      cases mark with
      | label name => exact ih noInstruction.2 _
      | stranded name => exact ih noInstruction.2 _
      | instruction handle => cases noInstruction.1

/-- Stranding leaves the labels of the instructions, and none behind the last one. -/
theorem attach_strandFinal (waiting : List String) (marks : List Mark) :
    attach waiting (strandFinal marks) =
      ((attach waiting marks).1, if marks.any Mark.isInstruction then [] else waiting) := by
  induction marks generalizing waiting with
  | nil => rfl
  | cons mark rest ih =>
      cases mark with
      | label name =>
          cases hasInstruction : rest.any Mark.isInstruction with
          | true =>
              simp [strandFinal, attach, ih, hasInstruction, Mark.isInstruction]
          | false =>
              simp [strandFinal, attach, ih, hasInstruction, Mark.isInstruction,
                attach_fst_of_any_eq_false hasInstruction]
      | stranded name =>
          simp [strandFinal, attach, ih, Mark.isInstruction]
      | instruction handle =>
          simp [strandFinal, attach, ih, Mark.isInstruction]

/-- The labels of instructions and those behind the last one are the ones that are not stranded. -/
theorem flatMap_attach (waiting : List String) (marks : List Mark) :
    (attach waiting marks).1.flatMap Prod.snd ++ (attach waiting marks).2 =
      waiting ++ marks.filterMap Mark.label? := by
  induction marks generalizing waiting with
  | nil => simp [attach]
  | cons mark rest ih =>
      cases mark <;> simp [attach, ih, List.filterMap_cons, Mark.label?]

/-- Waiting labels come to stand behind the last instruction only if there is none. -/
theorem attach_snd (waiting : List String) (marks : List Mark) :
    (attach waiting marks).2 =
      (if marks.any Mark.isInstruction then [] else waiting) ++ (attach [] marks).2 := by
  induction marks generalizing waiting with
  | nil => simp [attach]
  | cons mark rest ih =>
      cases mark with
      | label name =>
          simp only [attach, List.nil_append]
          rw [ih (waiting ++ [name]), ih [name]]
          simp only [List.any_cons, Mark.isInstruction, Bool.false_or]
          split <;> simp
      | stranded name => simpa [attach, Mark.isInstruction] using ih waiting
      | instruction handle => simp [attach, Mark.isInstruction]

/-- Stranding turns the labels behind the last instruction into stranded ones. -/
theorem perm_strandFinal (marks : List Mark) :
    ((strandFinal marks).filterMap Mark.stranded?).Perm
      ((attach [] marks).2 ++ marks.filterMap Mark.stranded?) := by
  induction marks with
  | nil => exact .nil
  | cons mark rest ih =>
      cases mark with
      | label name =>
          simp only [strandFinal, attach, List.nil_append, attach_snd [name] rest]
          cases rest.any Mark.isInstruction with
          | true => simpa [List.filterMap_cons, Mark.stranded?] using ih
          | false => simpa [List.filterMap_cons, Mark.stranded?] using ih
      | stranded name =>
          simpa [strandFinal, attach, List.filterMap_cons, Mark.stranded?] using
            (ih.cons name).trans List.perm_middle.symm
      | instruction handle =>
          simpa [strandFinal, attach, List.filterMap_cons, Mark.stranded?] using ih

/-- The handles of the instructions of a program. -/
theorem mem_attach_iff (waiting : List String) (marks : List Mark) (handle : Handle) :
    handle ∈ (attach waiting marks).1.map Prod.fst ↔ .instruction handle ∈ marks := by
  induction marks generalizing waiting with
  | nil => simp [attach]
  | cons mark rest ih =>
      cases mark <;> simp [attach, ih]

/-! ## Edits -/

/-- An arena that holds what was placed. -/
structure HoldsMarks (arena : Arena) (placing : Placing) (live : List Live) : Prop where
  represents : arena.Represents live
  ordered : arena.Ordered
  attached : live.map (fun item => (item.1, item.2.labels)) = placing.attached
  pending : arena.pending = placing.pending
  trailing : arena.trailing = placing.final ++ placing.stranded

namespace HoldsMarks

variable {arena : Arena} {placing : Placing} {live : List Live}

theorem push
    (holds : arena.HoldsMarks placing live)
    (entry : Entry) :
    ∃ others, (arena.push entry).2.HoldsMarks
      (placing.push (arena.push entry).1 entry.labels) others := by
  obtain ⟨represents, noPending, sameTrailing⟩ := holds.represents.push entry
  have ordered := (holds.represents.afterCall holds.ordered (.push entry)).2
  have attached : attach [] (placing.push (arena.push entry).1 entry.labels).marks =
      (placing.attached ++ [((arena.push entry).1, entry.labels ++ placing.pending)], []) := by
    rw [Placing.push, attach_append, attach_strandFinal, attach_labels]
    simp [Placing.attached, attach]
  refine ⟨_, represents, ordered, ?_, noPending, ?_⟩
  · rw [Placing.attached, attached, List.map_append, holds.attached, holds.pending]
    rfl
  · rw [sameTrailing, holds.trailing, Placing.final, Placing.final, attached]
    rfl

/-- Removing an instruction leaves its labels to the next one, or behind the last one. -/
theorem remove_listed
    {before after : List Live} {handle : Handle} {entry : Entry}
    (holds : arena.HoldsMarks placing (before ++ (handle, entry) :: after)) :
    ∃ others, (arena.remove handle).2.HoldsMarks (placing.remove handle) others := by
  have represents := holds.represents
  have isAttached := holds.attached
  have isMarked : .instruction handle ∈ placing.marks := by
    rw [← mem_attach_iff [], ← Placing.attached, ← isAttached]
    simp
  obtain ⟨front, back, isMarks, notInFront⟩ := List.eq_append_cons_of_mem isMarked
  have erased : (placing.remove handle).marks = front ++ back := by
    simp [Placing.remove, isMarks, List.erase_append_right _ notInFront]
  -- The instruction is listed once, so the record divides where the arena does.
  have notListed : ∀ labels, ∀ items : List Live, (∀ item ∈ items, item.1.index ≠ handle.index) →
      (handle, labels) ∉ items.map (fun item => (item.1, item.2.labels)) := by
    intro labels items others member
    obtain ⟨item, inItems, isPair⟩ := List.mem_map.mp member
    exact others item inItems (congrArg (·.1.index) isPair)
  have trailing := holds.trailing
  rw [Placing.attached, isMarks, attach_append, attach, List.map_append, List.map_cons,
    List.append_cons_inj_of_notMem
      (notListed _ before represents.index_ne_of_mem_before)
      (notListed _ after represents.index_ne_of_mem_after)] at isAttached
  obtain ⟨isBefore, isEntry, isAfter⟩ := isAttached
  rw [Placing.final, isMarks, attach_append, attach] at trailing
  have removed : attach [] (placing.remove handle).marks =
      (before.map (fun item => (item.1, item.2.labels)) ++ (attach entry.labels back).1,
        (attach entry.labels back).2) := by
    rw [erased, attach_append, ← isBefore, (Prod.mk.inj isEntry).2]
  rw [attach_eq entry.labels back, ← isAfter] at removed
  refine ⟨_, represents.remove, (Thins.remove arena handle).ordered holds.ordered, ?_,
    (pending_remove arena handle).trans holds.pending, ?_⟩
  · rw [Placing.attached, removed, List.map_append]
    cases after <;> rfl
  · rw [represents.trailing_remove, Placing.final, removed, trailing]
    cases after <;> simp [Placing.remove]

theorem remove
    (holds : arena.HoldsMarks placing live)
    (handle : Handle) :
    ∃ others, (arena.remove handle).2.HoldsMarks (placing.remove handle) others := by
  have listed : ∀ entry, arena.get? handle = some entry ↔ (handle, entry) ∈ live := fun _ =>
    holds.represents.get?_eq_some_iff (holds.represents.complete holds.ordered)
  cases found : arena.get? handle with
  | none =>
      have notMarked : .instruction handle ∉ placing.marks := by
        rw [← mem_attach_iff [], ← Placing.attached, ← holds.attached]
        intro member
        simp only [List.map_map, List.mem_map, Function.comp_apply] at member
        obtain ⟨⟨_, entry⟩, inLive, rfl⟩ := member
        simp [(listed entry).mpr inLive] at found
      have unchanged : placing.remove handle = placing := by
        rw [Placing.remove, List.erase_of_not_mem notMarked]
      rw [remove_of_get?_eq_none found, unchanged]
      exact ⟨live, holds⟩
  | some entry =>
      obtain ⟨before, after, rfl⟩ := List.append_of_mem ((listed entry).mp found)
      exact holds.remove_listed

/-- An edit keeps the arena and the record together. -/
theorem perform
    (holds : arena.HoldsMarks placing live)
    (edit : Edit) :
    ∃ others, (Placing.perform (arena, placing) edit).1.HoldsMarks
      (Placing.perform (arena, placing) edit).2 others := by
  cases edit with
  | push entry => exact holds.push entry
  | addLabel label =>
      exact ⟨live, holds.represents.relabel _ _, holds.ordered, holds.attached,
        congrArg (· ++ [label]) holds.pending, holds.trailing⟩
  | remove handle => exact holds.remove handle
  | compact =>
      exact ⟨live, holds.represents.compact, holds.ordered.compact, holds.attached,
        holds.pending, holds.trailing⟩

end HoldsMarks

theorem run_concat (edits : List Edit) (edit : Edit) :
    Placing.run (edits ++ [edit]) = Placing.perform (Placing.run edits) edit := by
  simp [Placing.run]

theorem exists_holdsMarks_run (edits : List Edit) :
    ∃ live, (Placing.run edits).1.HoldsMarks (Placing.run edits).2 live := by
  induction edits using List.reverseRecOn with
  | nil => exact ⟨[], represents_empty, by simp [Ordered, isLive, Placing.run], rfl, rfl, rfl⟩
  | append_singleton edits edit ih =>
      obtain ⟨live, holds⟩ := ih
      rw [run_concat]
      exact holds.perform edit

/-! ## Conservation -/

/-- A record that holds exactly the given labels. -/
structure Placing.Conserves (placing : Placing) (placed : List String) : Prop where
  labels : (placing.marks.filterMap Mark.label? ++ placing.stranded ++ placing.pending).Perm placed
  stranded : placing.stranded.Perm (placing.marks.filterMap Mark.stranded?)

/-- An element that gives nothing may be left out. -/
theorem filterMap_erase_of_eq_none
    (name? : Mark → Option String)
    (mark : Mark)
    (noName : name? mark = none)
    (marks : List Mark) :
    (marks.erase mark).filterMap name? = marks.filterMap name? := by
  induction marks with
  | nil => rfl
  | cons head rest ih =>
      by_cases isHere : head = mark
      · simp [isHere, noName]
      · rw [List.erase_cons_tail (by simpa using isHere), List.filterMap_cons, List.filterMap_cons,
          ih]

namespace Placing.Conserves

variable {placing : Placing} {placed : List String}

theorem push
    (conserves : placing.Conserves placed)
    (handle : Handle)
    (labels : List String) :
    (placing.push handle labels).Conserves (placed ++ labels) := by
  have ownLabels : (placing.push handle labels).marks.filterMap Mark.label? =
      placing.attached.flatMap Prod.snd ++ (labels ++ placing.pending) := by
    have stranded := flatMap_attach [] (strandFinal placing.marks)
    rw [attach_strandFinal, ite_self, List.append_nil, List.nil_append] at stranded
    rw [Placing.push, List.filterMap_append, List.filterMap_append, ← stranded, List.filterMap_map]
    simp [Function.comp_def, Mark.label?, Placing.attached]
  have noStranded : (placing.push handle labels).marks.filterMap Mark.stranded? =
      (strandFinal placing.marks).filterMap Mark.stranded? := by
    rw [Placing.push, List.filterMap_append, List.filterMap_append, List.filterMap_map]
    simp [Function.comp_def, Mark.stranded?]
  refine ⟨?_, ?_⟩
  · have wereLabels := conserves.labels
    rw [← List.nil_append (placing.marks.filterMap _), ← flatMap_attach [] placing.marks,
      List.perm_iff_count] at wereLabels
    rw [ownLabels, List.perm_iff_count]
    intro name
    have count := wereLabels name
    simp only [Placing.push, Placing.attached, Placing.final, List.count_append, List.count_nil]
      at count ⊢
    omega
  · rw [noStranded]
    exact (conserves.stranded.append_left placing.final).trans (perm_strandFinal placing.marks).symm

/-- An edit adds its labels to the record and takes none out. -/
theorem perform
    {arena : Arena}
    (conserves : placing.Conserves placed)
    (edit : Edit) :
    (Placing.perform (arena, placing) edit).2.Conserves (placed ++ edit.labels) := by
  cases edit with
  | push entry => exact conserves.push _ entry.labels
  | addLabel label =>
      refine ⟨?_, conserves.stranded⟩
      simpa [Placing.perform, Placing.addLabel, Edit.labels] using
        conserves.labels.append_right [label]
  | remove handle =>
      simp only [Edit.labels, List.append_nil, Placing.perform, Placing.remove]
      refine ⟨?_, ?_⟩
      · rw [filterMap_erase_of_eq_none Mark.label? (.instruction handle) rfl]
        exact conserves.labels
      · rw [filterMap_erase_of_eq_none Mark.stranded? (.instruction handle) rfl]
        exact conserves.stranded
  | compact => simpa [Placing.perform, Edit.labels] using conserves

theorem run (edits : List Edit) :
    (Placing.run edits).2.Conserves (edits.flatMap Edit.labels) := by
  induction edits using List.reverseRecOn with
  | nil => exact ⟨.nil, .nil⟩
  | append_singleton edits edit ih =>
      rw [run_concat, List.flatMap_append, List.flatMap_singleton]
      exact ih.perform edit

end Placing.Conserves

/-! ## Where labels stand -/

/-- An arena whose labels stand where they were placed, the stranded ones apart. -/
structure KeepsLabels (arena : Arena) (placing : Placing) (placed : List String) : Prop where
  /-- Each instruction has the labels that wait for it, in order. -/
  attached : arena.handles.toList.zip (arena.entries.toList.map Entry.labels) = placing.attached
  pending : arena.pending = placing.pending
  /-- Behind the last instruction are the labels that find none, and then the stranded ones. -/
  trailing : arena.trailing = placing.final ++ placing.stranded
  stranded : placing.stranded.Perm (placing.marks.filterMap Mark.stranded?)
  closed : arena.close = { arena with
    pending := []
    trailing := placing.final ++ placing.stranded ++ placing.pending }
  /-- No label is lost, and none is there twice. -/
  conserved :
    (arena.entries.toList.flatMap Entry.labels ++ arena.trailing ++ arena.pending).Perm placed

/-- After any edits each label stands for the first live instruction behind it, if it is not
stranded.  Labels are stranded when an instruction is appended and the instructions they stood for
were removed. -/
theorem keepsLabels_run (edits : List Edit) :
    (Placing.run edits).1.KeepsLabels (Placing.run edits).2 (edits.flatMap Edit.labels) := by
  obtain ⟨live, holds⟩ := exists_holdsMarks_run edits
  have conserves := Placing.Conserves.run edits
  generalize Placing.run edits = state at holds conserves
  have entries : state.1.entries.toList = live.map Prod.snd := by
    rw [holds.represents.entries_eq]
  have handles : state.1.handles.toList = live.map Prod.fst := by
    rw [holds.represents.handles_eq]
  refine ⟨?_, holds.pending, holds.trailing, conserves.stranded, ?_, ?_⟩
  · rw [entries, handles, ← holds.attached, List.map_map, List.zip_map']
    rfl
  · rw [close, holds.trailing, holds.pending]
  · have labels : state.1.entries.toList.flatMap Entry.labels =
        state.2.attached.flatMap Prod.snd := by
      rw [entries, ← holds.attached, List.flatMap_map, List.flatMap_map]
    have divided := flatMap_attach [] state.2.marks
    rw [labels, holds.trailing, holds.pending, ← List.append_assoc, Placing.attached, Placing.final,
      divided]
    exact conserves.labels

/-- A label whose instruction is removed as the last one does not come to the instruction that is
appended then. -/
theorem trailing_run_removedLast :
    let arena := (Placing.run [.addLabel "a", .push ⟨#[0x13], [], []⟩, .remove ⟨0, 0⟩,
      .push ⟨#[0x6a], [], []⟩]).1
    arena.entries = #[⟨#[0x6a], [], []⟩] ∧ arena.trailing = ["a"] := by
  decide +kernel

end Arena
end ScriptBytecode
