/-!
# Machine words

Lengths and indices are held in words of 64 bits. Their sums and products drop what does not fit.
-/

namespace PainterScene.Word

def size : Nat :=
  18446744073709551616

/-- The most entries that a list of bytes can have. -/
def maxLength : Nat :=
  9223372036854775807

def wrap (n : Nat) : Nat :=
  n % size

theorem wrap_of_lt {n : Nat} (hn : n < size) : wrap n = n :=
  Nat.mod_eq_of_lt hn

theorem wrap_le (n : Nat) : wrap n ≤ n :=
  Nat.mod_le n size

theorem maxLength_lt_size : maxLength < size := by
  decide

end PainterScene.Word
