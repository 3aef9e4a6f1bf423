/-
  Forward and backward passes over a circuit, repeated as long as they pay.

  A backward pass is a forward pass over the reversed gates; what is left over is put back before the next one.
-/
import ZXCircuits.Optimise.Forward

namespace ZXCircuits

/-- Numbers of gates: Hadamards, controlled gates, and rotations other than by half a turn. -/
structure GateCounts where
  hadamards : Nat := 0
  pairs : Nat := 0
  rotations : Nat := 0
  deriving DecidableEq, Repr

namespace GateCounts

def allAtMost (a b : GateCounts) : Bool := a.hadamards ≤ b.hadamards && a.pairs ≤ b.pairs && a.rotations ≤ b.rotations

def add (n : GateCounts) (g : Gate) : Attempt GateCounts :=
  if g.isLinked then .ok { n with pairs := n.pairs + 1 }
  else if g.isHad then .ok { n with hadamards := n.hadamards + 1 }
  else
    match g.op with
    | .rotation .not _ _ => .ok n
    | .rotation _ _ p | .parity p _ =>
      .ok (if p = 1 then n else { n with rotations := n.rotations + 1 })
    | _ => .error .unsupported

def ofGates (gs : List Gate) : Attempt GateCounts := gs.foldlM add {}

end GateCounts

namespace Circuit

variable (c : Circuit)

def withLeftOver (rest : List Gate) : Attempt Circuit := do
  return { c with gates := c.gates ++ (← rest.mapM Gate.expand).flatten }

def backwards : Circuit := { c with gates := c.gates.reverse }

def backAndForth (mergeSigns : Bool) : Attempt (Circuit × List Gate) := do
  let (c, rest) ← forward c.backwards mergeSigns
  forward (← c.withLeftOver rest).backwards mergeSigns

/-- Repeats passes until no count gets smaller.  Controlled signs are merged with controlled nots from the second time on. -/
def repeatPasses (verbose : Bool) : Nat → Nat → GateCounts → Circuit → Run (Circuit × List Gate)
  | fuel, done, counts, c => do
    let (c, rest) ← c.backAndForth (0 < done)
    let new ← GateCounts.ofGates c.gates
    match fuel with
    | 0 => return (c, rest)
    | fuel + 1 =>
      if 0 < done && counts.allAtMost new then return (c, rest)
      let c ← c.withLeftOver rest
      Run.sayIf verbose (toString (done + 1) ++ ".")
      repeatPasses verbose fuel (done + 1) new c

/-- Passes over a circuit until they no longer pay, at least two and at most `limit` times; the gates left over are given apart. -/
def simplifyApart (limit : Int) (verbose : Bool) : Run (Circuit × List Gate) := do
  let (c, rest) ← forward c false
  let counts ← GateCounts.ofGates c.gates
  let c ← c.withLeftOver rest
  let (c, rest) ← repeatPasses verbose (limit.toNat - 1 |>.max 1) 0 counts c
  return ({ c with gates := c.gates.map fun g => { g with index := 0 } }, rest)

def passLimit : Int := 1000

def simplify (verbose : Bool) : Run Circuit := do
  let (c, rest) ← c.simplifyApart passLimit verbose
  c.withLeftOver rest

end Circuit

end ZXCircuits
