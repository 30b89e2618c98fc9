/-!
# Triples

Three values of one type: the corners of a triangle, the weights of an interpolation, the rows of a
patch.
-/

namespace PainterScene

@[ext]
structure Triple (β : Type) where
  first : β
  second : β
  third : β
deriving DecidableEq

namespace Triple

variable {β γ : Type}

def toList (t : Triple β) : List β :=
  [t.first, t.second, t.third]

def map (f : β → γ) (t : Triple β) : Triple γ :=
  ⟨f t.first, f t.second, f t.third⟩

def mapFirst (n : Nat) (f : β → β) (t : Triple β) : Triple β :=
  ⟨if 0 < n then f t.first else t.first,
    if 1 < n then f t.second else t.second,
    if 2 < n then f t.third else t.third⟩

def get (t : Triple β) (i : Fin 3) : β :=
  match i with
  | 0 => t.first
  | 1 => t.second
  | 2 => t.third

def set? (t : Triple β) (i : Nat) (value : β) : Option (Triple β) :=
  match i with
  | 0 => some { t with first := value }
  | 1 => some { t with second := value }
  | 2 => some { t with third := value }
  | _ => none

end Triple

end PainterScene
