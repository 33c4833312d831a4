import ScriptBytecode.Paged

/-!
# Pages and what they hold

Dividing an array into pages and joining them again gives the array back.  Every page but the last
one is full.
-/

namespace ScriptBytecode
namespace Paged

variable {α : Type} {index : Nat}

theorem pageLength_pos : 0 < pageLength := by
  decide

/-- The pages of an array reach its end. -/
theorem le_pageCount_mul (length : Nat) : length ≤ pageCount length * pageLength := by
  unfold pageCount pageLength
  omega

/-- The last page is needed. -/
theorem mul_lt_of_lt_pageCount
    {length : Nat}
    (inRange : index < pageCount length) :
    index * pageLength < length := by
  unfold pageCount pageLength at *
  omega

theorem lt_pageCount_of_lt
    {address length : Nat}
    (inCode : address < length) :
    address / pageLength < pageCount length := by
  unfold pageCount pageLength
  omega

/-- The first pages hold the beginning of the array. -/
theorem flatten_range_map_extract (elements : Array α) (count : Nat) :
    ((Array.range count).map fun index =>
      elements.extract (index * pageLength) ((index + 1) * pageLength)).flatten =
      elements.extract 0 (count * pageLength) := by
  induction count with
  | zero => simp
  | succ count ih =>
      have forward : count * pageLength ≤ (count + 1) * pageLength :=
        Nat.mul_le_mul_right _ (Nat.le_succ count)
      rw [Array.range_succ, Array.map_append, Array.flatten_append, ih,
        Array.map_singleton, Array.flatten_singleton, Array.extract_append_extract, Nat.zero_min,
        Nat.max_eq_right forward]

/-- The pages of an array joined together are the array. -/
@[simp] theorem flatten_ofArray (elements : Array α) :
    (ofArray elements).flatten = elements := by
  have complete := le_pageCount_mul elements.size
  unfold flatten ofArray
  rw [flatten_range_map_extract, Array.extract_eq_self_of_le complete]

theorem getElem?_pages_ofArray
    {elements : Array α} {page : Array α}
    (found : (ofArray elements).pages[index]? = some page) :
    index < pageCount elements.size ∧
      page = elements.extract (index * pageLength) ((index + 1) * pageLength) := by
  obtain ⟨inRange, isPage⟩ := Array.getElem?_eq_some_iff.mp found
  simp only [ofArray, Array.size_map, Array.size_range] at inRange
  refine ⟨inRange, ?_⟩
  rw [← isPage]
  simp [ofArray]

@[simp] theorem size_pages_ofArray (elements : Array α) :
    (ofArray elements).pages.size = pageCount elements.size := by
  simp [ofArray]

/-- Every page but the last one is full. -/
theorem size_page_ofArray
    {elements : Array α} {page : Array α}
    (found : (ofArray elements).pages[index]? = some page)
    (notLast : index + 1 < (ofArray elements).pages.size) :
    page.size = pageLength := by
  obtain ⟨_, rfl⟩ := getElem?_pages_ofArray found
  rw [size_pages_ofArray] at notLast
  have nextNeeded := mul_lt_of_lt_pageCount notLast
  rw [Array.size_extract]
  rw [Nat.add_mul] at *
  omega

/-- The number of elements over all pages is the size of the joined array. -/
theorem length_eq_size_flatten (paged : Paged α) : paged.length = paged.flatten.size := by
  unfold length flatten
  rw [Array.size_flatten, Array.sum_eq_foldl, Array.foldl_map]

end Paged
end ScriptBytecode
