/-!
# Runs of characters

A property of characters is given by the runs of code points that have it, in ascending order.
-/

namespace ScriptBytecode
namespace Text

/-- Whether a character is in one of some runs, each given by the number of code points between it
and the run before it, and by its length. -/
def inRuns (runs : Array (Nat × Nat)) (char : Char) : Bool :=
  let (_, found) := runs.foldl
    (fun (start, found) (gap, length) =>
      (start + gap + length,
        found || start + gap ≤ char.toNat && char.toNat < start + gap + length))
    (0, false)
  found

end Text
end ScriptBytecode
