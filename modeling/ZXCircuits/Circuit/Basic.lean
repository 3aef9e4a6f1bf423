/-
  Circuits: gates on numbered wires, in the order in which they act.

  A gate may name a wire that the circuit does not have; that shows when the circuit is turned into a diagram.
-/
import ZXCircuits.Gate

namespace ZXCircuits

structure Circuit where
  qubits : Int
  name : String := ""
  gates : List Gate := []
  deriving DecidableEq, Repr, Inhabited

namespace Circuit

variable (c : Circuit) (g : Gate)

def wires : List Int := (List.range c.qubits.toNat).map Int.ofNat

def push : Circuit := { c with gates := c.gates ++ [g] }

def copy (c : Circuit) : Attempt Circuit := do
  return { c with gates := ← c.gates.mapM Gate.copy }

def adjoint : Attempt Circuit := do
  return { c with name := c.name ++ "Adjoint", gates := ← c.gates.reverse.mapM Gate.inverse }

def expand (c : Circuit) : Attempt Circuit := do
  return { c with gates := (← c.gates.mapM Gate.expand).flatten }

def splitZ (target : Int) (phase : Rat) : List Gate :=
  if phase.den = 2 then [Gate.s target (phase.num % 4 ≠ 1)]
  else if phase.den = 4 then
    let n := phase.num % 8
    if n = 3 then [Gate.z target, Gate.t target true]
    else if n = 5 then [Gate.z target, Gate.t target false]
    else [Gate.t target (n ≠ 1)]
  else [Gate.zPhase target phase]

/-- A rotation as named gates: rotations by nothing go, half turns are `Z` or `NOT`, and others about the X axis stand between
    Hadamards. -/
def splitGate : List Gate :=
  match g.op with
  | .rotation k t p =>
    if p = 0 then []
    else if p = 1 then [if k.isZ then Gate.z t else Gate.not t]
    else if k.isZ then splitZ t p
    else [Gate.had t] ++ splitZ t p ++ [Gate.had t]
  | _ => [g]

def splitPhases : Circuit := { c with gates := c.gates.flatMap splitGate }

/-- The circuit followed by another, of as many wires or with those that the mask lists. -/
def append (c d : Circuit) (mask : List Int) : Attempt Circuit := do
  if mask.isEmpty then
    if c.qubits ≠ d.qubits then throw .qubitAmounts
    return { c with gates := c.gates ++ d.gates }
  if (mask.length : Int) ≠ d.qubits then throw .maskSize
  return { c with gates := c.gates ++ (← d.gates.mapM fun g => g.reposition mask) }

def pushNamed (names : List String) (wire : Int) : Attempt Circuit := do
  return { c with gates := c.gates ++ (← names.mapM fun n => Gate.single n wire) }

def tCount (c : Circuit) : Attempt Nat := do
  return (← c.gates.mapM Gate.tCount).foldl (· + ·) 0

def twoQubitCount : Attempt Nat := do
  return (← c.expand).gates.countP fun g => g.isCnot || g.isCz

def isRotation : Bool := g.isZRotation || g.isXRotation

def isPair : Bool := g.isCnot || g.isCzLike

def stats : Attempt String := do
  let t ← c.tCount
  let hadamards := c.gates.countP Gate.isHad
  let pairs := c.gates.countP isPair
  let rotations := c.gates.countP fun g => isRotation g && g.phase.den ≤ 2
  let other := c.gates.countP fun g => !(isRotation g || g.isHad || isPair g)
  let cliffords := hadamards + pairs + rotations
  let gates := c.gates.length
  let s := s!"Circuit {c.name} on {c.qubits} qubits with {gates} gates.\n        {t} is the T-count\n        {cliffords} Cliffords among which \n        {pairs} 2-qubit gates and {hadamards} Hadamard gates."
  return if 0 < other then s ++ s!"\nThere are {other} gates of a different type" else s

def summary : String := s!"Circuit({c.qubits} qubits, {c.gates.length} gates)"

end Circuit

end ZXCircuits
