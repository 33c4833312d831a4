/-!
# Stable sorting by a key

Insertion sort by a natural-number key.  Elements with equal keys keep their order.
-/

namespace ScriptBytecode

variable {α : Type}

/-- Inserts an element before the first one whose key is not smaller. -/
def insertByKey (key : α → Nat) (element : α) : List α → List α
  | [] => [element]
  | head :: rest =>
    if key element ≤ key head then element :: head :: rest
    else head :: insertByKey key element rest

/-- Sorts by a key; elements with equal keys keep their order. -/
def sortByKey (key : α → Nat) (elements : List α) : List α :=
  elements.foldr (insertByKey key) []

end ScriptBytecode
