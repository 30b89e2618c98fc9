import Mathlib
import PainterScene.Scalar

/-!
# Rational scalars

The rational numbers as scalars: every operation is exact and every value is finite.
-/

namespace PainterScene

instance : Scalar Rat where
  decidableLT := inferInstance
  decidableLE := inferInstance
  isFinite _ := true

end PainterScene
