import VitalSE.Core.Executor
import VitalSE.Expr.Assignment

/-!
# Seeds

A seed is a part of a test input that a state is still to follow: an assignment
that leaves free what it does not bind. When a constraint is added that a seed
violates, the seed is patched. The bytes that the constraint reads at constant
positions are looked at first, one after the other: a byte keeps its value if the
constraints allow it, and gets another one if not. If the condition is still false
then, all bytes of the seed are gone through in the same way.
-/

namespace VitalSE

/-- The bytes of a seed. -/
abbrev Seed := Bindings

namespace Seed

def assignment (seed : Seed) : Assignment := ⟨true, seed⟩

end Seed

namespace Seed

variable {S : Type} (t : TimingSolver S) (rewriteEqualities : Bool)

end Seed

end VitalSE
