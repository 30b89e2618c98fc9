/-!
# Scalars

The arithmetic that the geometry is written over. A `Scalar` promises operations and no law:
binary floating point satisfies none of the field laws and the rational numbers satisfy all of
them, and each definition over a `Scalar` is the same computation in both.
-/

namespace PainterScene

/-- The operations that the geometry needs of its numbers. -/
class Scalar (α : Type) extends Zero α, One α, Add α, Sub α, Mul α, Div α, Neg α, NatCast α,
    OfScientific α, LT α, LE α, BEq α where
  decidableLT : DecidableLT α
  decidableLE : DecidableLE α
  /-- Missing and overflowing data are the values that are not finite. -/
  isFinite : α → Bool

instance : Scalar Float where
  zero := 0.0
  one := 1.0
  natCast := Float.ofNat
  decidableLT := inferInstance
  decidableLE := inferInstance
  isFinite := Float.isFinite

namespace Scalar

variable {α : Type} [Scalar α]

instance : DecidableLT α := Scalar.decidableLT

instance : DecidableLE α := Scalar.decidableLE

/-- A value that is not a number is the one that is not below itself. -/
def isNaN (x : α) : Bool :=
  !decide (x ≤ x)

/-- Above every number, where the arithmetic has such a value. -/
def infinity : α :=
  1 / 0

/-- The distance from 1 to the next double, `2 ^ -52`. -/
def epsilon : α :=
  1 / ((Nat.pow 2 52 : Nat) : α)

/-- The smaller operand, or the other one when either is not a number. -/
protected def min (a b : α) : α :=
  if b < a ∨ isNaN a then b else a

protected def max (a b : α) : α :=
  if a < b ∨ isNaN a then b else a

/-- The magnitude, which is the positive zero for both zeros. -/
protected def abs (x : α) : α :=
  if x ≤ 0 then 0 - x else x

/-- The least of the values that are numbers, `infinity` when there is none. -/
def least (xs : List α) : α :=
  match xs.filter (fun x => !isNaN x) with
  | [] => infinity
  | x :: rest => rest.foldl Scalar.min x

def greatest (xs : List α) : α :=
  match xs.filter (fun x => !isNaN x) with
  | [] => -infinity
  | x :: rest => rest.foldl Scalar.max x

/-- The sum of the values over their number, so not a number for no values. -/
def mean (xs : List α) : α :=
  xs.foldl (· + ·) 0 / (xs.length : α)

end Scalar

end PainterScene
