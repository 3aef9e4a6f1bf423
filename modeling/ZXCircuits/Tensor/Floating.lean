/-
  Tensors of floating-point complex numbers, as linear maps, and their comparison.

  Wire `i` of a map has the axes `2 i`, its input, and `2 i + 1`.  Tensors are the same up to a scalar if they are close after both are
  divided by their entry at the first place where the first one is not about zero.
-/
import ZXCircuits.Tensor.OfDiagram
import ZXCircuits.Diagram.Compose
import ZXCircuits.Generate.CliffordT

namespace ZXCircuits.Tensor

variable {K : Type} [Amplitudes K]

def wires (t : Tensor K) : Nat := t.rank / 2

def compose (s t : Tensor K) : Attempt (Tensor K) :=
  if s.rank = t.rank then
    let n := s.wires
    let wires := List.range n
    let joined := s.contract t (wires.map (2 * · + 1)) (wires.map (2 * ·))
    .ok (joined.permute (wires.flatMap fun i => [i, n + i]))
  else .error (.tensorAmounts s.wires t.wires)

def adjoint (t : Tensor K) : Tensor K := (t.map Amplitudes.conj).permute ((List.range t.wires).flatMap fun i => [2 * i + 1, 2 * i])

end ZXCircuits.Tensor

namespace ZXCircuits

/-- A complex number of two machine numbers. -/
structure FloatPair where
  re : Float
  im : Float
  deriving Inhabited

namespace FloatPair

def add (x y : FloatPair) : FloatPair := ⟨x.re + y.re, x.im + y.im⟩

def sub (x y : FloatPair) : FloatPair := ⟨x.re - y.re, x.im - y.im⟩

def mul (x y : FloatPair) : FloatPair := ⟨x.re * y.re - x.im * y.im, x.re * y.im + x.im * y.re⟩

def modulus (x : FloatPair) : Float := (x.re * x.re + x.im * x.im).sqrt

def div (x y : FloatPair) : FloatPair :=
  let d := y.re * y.re + y.im * y.im
  ⟨(x.re * y.re + x.im * y.im) / d, (x.im * y.re - x.re * y.im) / d⟩

instance : Amplitudes FloatPair where
  zero := ⟨0, 0⟩
  one := ⟨1, 0⟩
  add := add
  sub := sub
  mul := mul
  conj x := ⟨x.re, -x.im⟩
  halfRoot := ⟨Float.sqrt 0.5, 0⟩
  turn p :=
    let angle := Float.circleRatio * Rat.nearestFloat p
    ⟨angle.cos, angle.sin⟩
  isTiny x := x.modulus < 1e-6
  boost := ⟨1e4, 0⟩

def isClose (x y : FloatPair) : Bool := (x.sub y).modulus ≤ 1e-8 + 1e-5 * y.modulus

def negligible : Float := 1e-14

end FloatPair

namespace Tensor

/-- Whether all entries are close.  A tensor of lower rank is repeated along the first axes of the
other. -/
def isClose (s t : Tensor FloatPair) : Bool :=
  (List.range (Nat.pow 2 (max s.rank t.rank))).all fun i =>
    (s.entry (i % Nat.pow 2 s.rank)).isClose (t.entry (i % Nat.pow 2 t.rank))

def firstLarge? (t : Tensor FloatPair) : Option Nat := t.entries.findIdx? fun a => FloatPair.negligible < a.modulus

def sameUpToScalar (s t : Tensor FloatPair) : Attempt Bool := do
  if s.isClose t then return true
  match s.firstLarge? with
  | none => throw .nearZero
  | some i =>
    if Nat.pow 2 t.rank ≤ i then throw .outOfRange
    let a := s.entry i
    let b := t.entry i
    if b.modulus < FloatPair.negligible then return false
    return (s.map (·.div a)).isClose (t.map (·.div b))

end Tensor

def Diagram.floatTensor (g : Diagram) : Attempt (Tensor FloatPair) := g.tensor

def Circuit.floatTensor (c : Circuit) : Attempt (Tensor FloatPair) := do
  (← c.toDiagram true).floatTensor

def Diagram.isUnitary (g : Diagram) : Attempt Bool := do
  let both ← (← g.adjoint).compose g
  (← both.floatTensor).sameUpToScalar
    (← (← Generate.identity g.inputs.length (.int 2)).floatTensor)

end ZXCircuits
