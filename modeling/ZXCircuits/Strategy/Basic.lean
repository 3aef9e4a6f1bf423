/-
  Strategies: a rule applied as often as it matches.

  `Rule.exhaustWithin` tells how many rounds it took, and fails if they are more than a bound allows; `Rule.exhaust` has the bound that
  programs use.
-/
import ZXCircuits.Rule.Fusion
import ZXCircuits.Rule.Pivot
import ZXCircuits.Rule.Gadget

namespace ZXCircuits

/-- A rule: its name, its places in a diagram, and its effect at some places. -/
structure Rule (μ : Type) where
  name : String
  find : Diagram → Attempt (Diagram × List μ)
  effect : Diagram → List μ → Attempt (Diagram × Effect)

def Diagram.stepBound (g : Diagram) : Nat := Nat.pow (g.numVertices + 4) 3

namespace Rule

variable {μ : Type}

def round (r : Rule μ) (g : Diagram) : Attempt (Diagram × Nat) := do
  let (g, places) ← r.find g
  if places.isEmpty then return (g, 0)
  let (g, e) ← r.effect g places
  return (← g.applyEffect e, places.length)

def repeatFrom (r : Rule μ) (verbose : Bool) : Nat → Nat → Diagram → Run (Diagram × Nat)
  | 0, _, _ => throw .stepLimit
  | fuel + 1, done, g => do
    let (g, places) ← r.find g
    if places.isEmpty then return (g, done)
    Run.sayIf (verbose && done == 0) (r.name ++ ": ")
    Run.sayIf verbose (toString places.length)
    let (g, e) ← r.effect g places
    let g ← g.applyEffect e
    Run.sayIf verbose ". "
    repeatFrom r verbose fuel (done + 1) g

/-- Repeats a rule until it finds no more places, and tells how many rounds were made; `bound` says how many rounds a
    diagram is allowed. -/
def exhaustWithin (bound : Diagram → Nat) (r : Rule μ) (verbose : Bool) (g : Diagram) : Run (Diagram × Nat) := do
  let (g, rounds) ← r.repeatFrom verbose (bound g) 0 g
  Run.sayIf (verbose && 0 < rounds) s!" {rounds} iterations\n"
  return (g, rounds)

def exhaust (r : Rule μ) (verbose : Bool) (g : Diagram) : Run (Diagram × Nat) := r.exhaustWithin Diagram.stepBound verbose g

/-! ## The rules -/

def anything {α : Type} (_ : α) : Bool := true

def bialgebra : Rule Bialgebra.Place :=
  { name := "bialg_simp"
    find := fun g => .ok (g, Bialgebra.find g anything none)
    effect := fun g ps => .ok (g, Bialgebra.effect ps) }

def fusion (accept : Edge → Bool) : Rule Fusion.Place :=
  { name := "spider_simp"
    find := fun g => .ok (g, Fusion.find g accept none)
    effect := Fusion.effect }

def pivot (accept : Edge → Bool) : Rule Pivot.Place :=
  { name := "pivot_simp"
    find := fun g => .ok (g, Pivot.find g accept none false)
    effect := Pivot.effect }

def pivotGadget (accept : Edge → Bool) : Rule Pivot.Place :=
  { name := "pivot_gadget_simp"
    find := fun g => Pivot.findGadget g accept none
    effect := Pivot.effect }

variable (accept : Vertex → Bool)

def pivotBoundary : Rule Pivot.Place :=
  { name := "pivot_boundary_simp"
    find := fun g => Pivot.findBoundary g accept none
    effect := Pivot.effect }

def localComplement : Rule LocalComplement.Place :=
  { name := "lcomp_simp"
    find := fun g => .ok (g, LocalComplement.find g accept none false)
    effect := fun g ps => .ok (LocalComplement.effect g ps) }

def identity : Rule Identity.Place :=
  { name := "id_simp"
    find := fun g => .ok (g, Identity.find g accept none)
    effect := fun g ps => do return (g, ← Identity.effect ps) }

def gadget : Rule Gadget.Place :=
  { name := "gadget_simp"
    find := Gadget.find
    effect := Gadget.effect }

end Rule

end ZXCircuits
