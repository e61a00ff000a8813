/-!
# Text without regard to case

Texts that are ordered by their form in lower case, where only the letters `A` to `Z` have one.
Two texts can be equal in this order and still be spelled differently.

* `CaselessText`: such a text, with its spelling.
-/

namespace Dataflow

/-- A text whose place in the order does not depend on the case of its ASCII letters. -/
structure CaselessText where
  spelling : String
  deriving DecidableEq, Repr

namespace CaselessText

/-- The text in lower case. -/
def folded (t : CaselessText) : String := t.spelling.map Char.toLower

instance : Ord CaselessText := ⟨fun s t => compare s.folded t.folded⟩

theorem compare_eq (s t : CaselessText) : compare s t = compare s.folded t.folded := rfl

instance : Std.TransOrd CaselessText := inferInstanceAs (Std.TransCmp (compareOn folded))

end CaselessText

end Dataflow
