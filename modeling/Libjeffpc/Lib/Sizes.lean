import Mathlib.Tactic

/-!
# Sizes of the finite types

The sizes of the `Fin` types that the models index with literals.
-/

namespace Libjeffpc.Lib

instance neZero_one : NeZero 1 := ⟨by decide⟩

instance neZero_four : NeZero 4 := ⟨by decide⟩

instance neZero_ten : NeZero 10 := ⟨by decide⟩

end Libjeffpc.Lib
