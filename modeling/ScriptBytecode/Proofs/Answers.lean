/-!
# Answers that may fail

What a computation that may fail answers: in two parts, for every element or every index of a list,
in one pass over a list, and for every element of an array with its index.
-/

namespace ScriptBytecode

variable {α β ε : Type}

theorem toOption_eq_some_iff
    {result : Except ε α} {value : α} :
    result.toOption = some value ↔ result = .ok value := by
  cases result <;> simp [Except.toOption]

theorem toOption_bind_ok
    {answer : Except ε α} {change : α → β} :
    (answer >>= fun value => .ok (change value)).toOption = answer.toOption.map change := by
  cases answer <;> rfl

/-! A changed answer fails and succeeds as the answer does. -/

section Changed

variable {α β ε : Type} {answer : Except ε α} {change : α → β}

theorem map_eq_error_iff
    {error : ε} :
    answer.map change = .error error ↔ answer = .error error := by
  cases answer <;> simp [Except.map]

theorem map_eq_ok_iff
    {changed : β} :
    answer.map change = .ok changed ↔ ∃ value, answer = .ok value ∧ change value = changed := by
  cases answer <;> simp [Except.map]

theorem exists_map_eq_ok_iff :
    (∃ changed, answer.map change = .ok changed) ↔ ∃ value, answer = .ok value := by
  cases answer <;> simp [Except.map]

end Changed

/-- What succeeds in two parts succeeds in each. -/
theorem exists_of_bind_eq_ok
    {first : Except ε α} {next : α → Except ε β} {answer : β}
    (succeeded : first >>= next = .ok answer) :
    ∃ value, first = .ok value ∧ next value = .ok answer := by
  cases first with
  | error error => cases succeeded
  | ok value => exact ⟨value, rfl, succeeded⟩

/-- Reading succeeds for a whole list if it does for every element. -/
theorem mapM_eq_ok
    {read : α → Except ε β} {value : α → β} {elements : List α}
    (reads : ∀ element ∈ elements, read element = .ok (value element)) :
    elements.mapM read = .ok (elements.map value) := by
  induction elements with
  | nil => rfl
  | cons element rest ih =>
      obtain ⟨here, later⟩ := List.forall_mem_cons.mp reads
      rw [List.mapM_cons, here, ih later]
      rfl

/-- Reading at the indices of a list gives the list if every element is read at its index. -/
theorem mapM_range_eq_some
    {read : Nat → Option α} {values : List α}
    (reads : ∀ index value, values[index]? = some value → read index = some value) :
    (List.range values.length).mapM read = some values := by
  have readUpTo : ∀ count ≤ values.length,
      (List.range count).mapM read = some (values.take count) := by
    intro count inside
    induction count with
    | zero => rfl
    | succ count ih =>
        have isValue := List.getElem?_eq_getElem (Nat.lt_of_succ_le inside)
        rw [List.range_succ, List.mapM_append, ih (Nat.le_of_succ_le inside),
          List.mapM_cons, reads count _ isValue, List.take_add_one, isValue]
        rfl
  rw [readUpTo values.length (Nat.le_refl _), List.take_length]

/-- Reading a list gives one answer for each element. -/
theorem length_of_mapM_eq_ok
    {read : α → Except ε β} {elements : List α} {answers : List β}
    (succeeded : elements.mapM read = .ok answers) :
    answers.length = elements.length := by
  induction elements generalizing answers with
  | nil =>
      cases succeeded
      rfl
  | cons element rest ih =>
      rw [List.mapM_cons] at succeeded
      obtain ⟨answer, -, later⟩ := exists_of_bind_eq_ok succeeded
      obtain ⟨others, areOthers, isAll⟩ := exists_of_bind_eq_ok later
      cases isAll
      exact congrArg (· + 1) (ih areOthers)

theorem size_of_mapM_eq_ok
    {read : α → Except ε β} {elements : Array α} {answers : Array β}
    (succeeded : elements.mapM read = .ok answers) :
    answers.size = elements.size := by
  rw [Array.mapM_eq_mapM_toList] at succeeded
  cases isList : elements.toList.mapM read with
  | error error =>
      rw [isList] at succeeded
      cases succeeded
  | ok listed =>
      rw [isList] at succeeded
      cases succeeded
      exact (length_of_mapM_eq_ok isList).trans Array.length_toList

/-- The first element of a kind is the head, or the head is passed and it comes later. -/
theorem exists_first_cons_iff
    {passed found : α → Prop} {head : α} {rest : List α} :
    (∃ before item after, head :: rest = before ++ item :: after ∧
        (∀ earlier ∈ before, passed earlier) ∧ found item) ↔
      found head ∨ passed head ∧ ∃ before item after, rest = before ++ item :: after ∧
        (∀ earlier ∈ before, passed earlier) ∧ found item := by
  constructor
  · rintro ⟨before, item, after, divided, earlier, isFound⟩
    cases before with
    | nil =>
        cases divided
        exact .inl isFound
    | cons first before =>
        cases divided
        obtain ⟨headPassed, earlier⟩ := List.forall_mem_cons.mp earlier
        exact .inr ⟨headPassed, before, item, after, rfl, earlier, isFound⟩
  · rintro (isFound | ⟨headPassed, before, item, after, rfl, earlier, isFound⟩)
    · exact ⟨[], head, rest, rfl, List.forall_mem_nil _, isFound⟩
    · exact ⟨head :: before, item, after, rfl,
        List.forall_mem_cons.mpr ⟨headPassed, earlier⟩, isFound⟩

/-! A pass over a list that takes in an answer for every element ends at the first that fails. -/

section Pass

variable {α β γ ε : Type} {read : α → Except ε γ} {extend : β → α → γ → β}

theorem foldlM_map_eq_error_iff
    {elements : List α} {state : β} {error : ε} :
    elements.foldlM (fun state element => (read element).map (extend state element)) state =
        .error error ↔
      ∃ before element after, elements = before ++ element :: after ∧
        (∀ earlier ∈ before, ∃ value, read earlier = .ok value) ∧ read element = .error error := by
  induction elements generalizing state with
  | nil => simp [pure, Except.pure]
  | cons element rest ih =>
      rw [List.foldlM_cons, exists_first_cons_iff]
      cases isRead : read element with
      | error found => simp [Except.map, bind, Except.bind]
      | ok value =>
          have later := @ih (extend state element value)
          simpa [Except.map, bind, Except.bind] using later

theorem exists_foldlM_map_eq_ok_iff
    {elements : List α} {state : β} :
    (∃ result, elements.foldlM (fun state element => (read element).map (extend state element))
        state = .ok result) ↔
      ∀ element ∈ elements, ∃ value, read element = .ok value := by
  induction elements generalizing state with
  | nil => simp [pure, Except.pure]
  | cons element rest ih =>
      rw [List.foldlM_cons, List.forall_mem_cons]
      cases isRead : read element with
      | error found => simp [Except.map, bind, Except.bind]
      | ok value =>
          have later := @ih (extend state element value)
          simpa [Except.map, bind, Except.bind] using later

end Pass

section Indexed

variable {α β ε : Type} {read : Nat → α → Except ε β}

theorem mapIdxM_go_eq_ok_iff
    {elements : List α} {before : Array β} {answers : List β} :
    List.mapIdxM.go read elements before = .ok answers ↔
      ∃ later, answers = before.toList ++ later ∧ later.length = elements.length ∧
        ∀ (index : Nat) (element : α) (answer : β), elements[index]? = some element →
          later[index]? = some answer → read (before.size + index) element = .ok answer := by
  induction elements generalizing before with
  | nil =>
      rw [List.mapIdxM.go]
      constructor
      · intro succeeded
        cases succeeded
        exact ⟨[], (List.append_nil _).symm, rfl, nofun⟩
      · rintro ⟨later, rfl, noMore, -⟩
        rw [List.length_eq_zero_iff.mp noMore, List.append_nil]
        rfl
  | cons element rest ih =>
      rw [List.mapIdxM.go]
      constructor
      · intro succeeded
        obtain ⟨answer, isAnswer, others⟩ := exists_of_bind_eq_ok succeeded
        obtain ⟨later, rfl, sameLength, reads⟩ := ih.mp others
        refine ⟨answer :: later, by simp, by simp [sameLength], ?_⟩
        rintro (_ | index) other found isElement isFound
        · cases isElement
          cases isFound
          exact isAnswer
        · have isRead := reads index other found isElement isFound
          rwa [Array.size_push, Nat.add_right_comm] at isRead
      · rintro ⟨later, rfl, sameLength, reads⟩
        obtain ⟨answer, others, rfl⟩ := List.exists_cons_of_length_eq_add_one sameLength
        have isAnswer : read before.size element = .ok answer := reads 0 element answer rfl rfl
        rw [isAnswer]
        refine ih.mpr ⟨others, by simp, by simpa using sameLength, ?_⟩
        intro index other found isElement isFound
        rw [Array.size_push, Nat.add_right_comm]
        exact reads (index + 1) other found isElement isFound

/-- Reading with the index of an element gives an array of the answers. -/
theorem mapIdxM_eq_ok_iff
    {elements : Array α} {answers : Array β} :
    elements.mapIdxM read = .ok answers ↔
      answers.size = elements.size ∧
        ∀ (index : Nat) (element : α) (answer : β), elements[index]? = some element →
          answers[index]? = some answer → read index element = .ok answer := by
  have listed : elements.mapIdxM read = .ok answers ↔
      elements.toList.mapIdxM read = .ok answers.toList := by
    rw [← Array.toList_mapIdxM]
    cases elements.mapIdxM read with
    | error error => simp [Functor.map, Except.map]
    | ok found => simp [Functor.map, Except.map]
  rw [listed, List.mapIdxM, mapIdxM_go_eq_ok_iff]
  simp

end Indexed
end ScriptBytecode
