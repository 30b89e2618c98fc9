/-!
# Fixed decimals

Doubles written with a sign and a fixed number of decimal places. The exact binary value is rounded
to the nearest decimal, and a value halfway between two goes to the even one.
-/

namespace PainterScene.FixedDecimal

def exponentField (bits : Nat) : Nat :=
  bits / Nat.pow 2 52 % Nat.pow 2 11

/-- The integer that a finite double is `2 ^ (max exponentField 1 - 1075)` times of, up to its
sign. -/
def significand (bits : Nat) : Nat :=
  if exponentField bits = 0 then bits % Nat.pow 2 52 else Nat.pow 2 52 + bits % Nat.pow 2 52

/-- `num / den` rounded to the nearest natural number, halves to the even one. -/
def roundHalfEven (num den : Nat) : Nat :=
  let q := num / den
  let r := num % den
  if den < 2 * r ∨ (2 * r = den ∧ q % 2 = 1) then q + 1 else q

def scaled (places bits : Nat) : Nat :=
  let num := significand bits * Nat.pow 10 places
  let exponent := max (exponentField bits) 1
  if 1075 ≤ exponent then num * Nat.pow 2 (exponent - 1075)
  else roundHalfEven num (Nat.pow 2 (1075 - exponent))

def digits (places n : Nat) : String :=
  let fraction := toString (n % Nat.pow 10 places)
  let padding := String.ofList (List.replicate (places - fraction.length) '0')
  s!"{n / Nat.pow 10 places}." ++ padding ++ fraction

def render (places : Nat) (x : Float) : String :=
  let bits := x.toBits.toNat
  let sign := if bits < Nat.pow 2 63 then "+" else "-"
  if x.isNaN then "NaN"
  else if exponentField bits = 2047 then sign ++ "inf"
  else sign ++ digits places (scaled places bits)

end PainterScene.FixedDecimal
