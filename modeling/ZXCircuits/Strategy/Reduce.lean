/-
  Combined strategies.

  The forms `…Within` take the bound on the rounds of every loop.  For phase teleportation a copy is simplified while its phases are
  tracked, and phases that are fused there are fused in the diagram itself.
-/
import ZXCircuits.Strategy.Basic
import ZXCircuits.Diagram.Compose

namespace ZXCircuits.Diagram

variable (g : Diagram) (v : Vertex) (e : Edge)

def exchangeEdge : Attempt Diagram :=
  match g.edgeKind e with
  | .hadamard => g.setEdgeKind e .regular
  | .regular => g.setEdgeKind e .hadamard
  | _ => .ok g

def greenVertex : Attempt Diagram := do
  if g.kindD v != .x then return g
  (← g.incidentEdges v).foldlM exchangeEdge (g.setKind v .z)

def toGreen : Attempt Diagram := g.vertices.foldlM greenVertex g

def flipEdge : Attempt Diagram := g.setEdgeKind e (if g.edgeKind e = .hadamard then .regular else .hadamard)

def prefersRed : Bool :=
  let es := g.incidentEdgesD v
  es.countP (fun e => g.edgeKind e == .regular) < es.countP fun e => g.edgeKind e == .hadamard

def changeColour : Attempt Diagram := do
  match g.kindD v with
  | .z => (← g.incidentEdges v).foldlM flipEdge (g.setKind v .x)
  | .x => (← g.incidentEdges v).foldlM flipEdge (g.setKind v .z)
  | _ => return g

def toRed (select : Diagram → Vertex → Bool) : Attempt Diagram :=
  g.vertices.foldlM (fun g v => if select g v then g.changeColour v else .ok g) g

end ZXCircuits.Diagram

namespace ZXCircuits.Strategy

open Rule

def phaseFree (verbose : Bool) (g : Diagram) : Run Diagram := do
  let (g, _) ← (fusion anything).exhaust verbose g
  let (g, _) ← bialgebra.exhaust verbose g
  return g

variable (bound : Diagram → Nat) (verbose : Bool) (g : Diagram)

def interiorRound : Run (Diagram × Nat) := do
  let (g, i₁) ← (identity anything).exhaustWithin bound verbose g
  let (g, i₂) ← (fusion anything).exhaustWithin bound verbose g
  let (g, i₃) ← (pivot anything).exhaustWithin bound verbose g
  let (g, i₄) ← (localComplement anything).exhaustWithin bound verbose g
  return (g, i₁ + i₂ + i₃ + i₄)

def interiorRounds (bound : Diagram → Nat) (verbose : Bool) : Nat → Nat → Diagram → Run (Diagram × Nat)
  | 0, _, _ => throw .stepLimit
  | fuel + 1, done, g => do
    let (g, changed) ← interiorRound bound verbose g
    if changed = 0 then return (g, done)
    interiorRounds bound verbose fuel (done + 1) g

def interiorCliffordWithin : Run (Diagram × Nat) := do
  let (g, _) ← (fusion anything).exhaustWithin bound verbose g
  let g ← g.toGreen
  interiorRounds bound verbose (bound g) 0 g

def interiorClifford : Run (Diagram × Nat) := interiorCliffordWithin Diagram.stepBound verbose g

def cliffordRounds (bound : Diagram → Nat) (verbose : Bool) : Nat → Diagram → Run Diagram
  | 0, _ => throw .stepLimit
  | fuel + 1, g => do
    let (g, _) ← interiorCliffordWithin bound verbose g
    let (g, i) ← (pivotBoundary anything).exhaustWithin bound verbose g
    if i = 0 then return g
    cliffordRounds bound verbose fuel g

def cliffordWithin : Run Diagram := cliffordRounds bound verbose (bound g) g

def clifford : Run Diagram := cliffordWithin Diagram.stepBound verbose g

def reduceRounds (bound : Diagram → Nat) (verbose : Bool) : Nat → Diagram → Run Diagram
  | 0, _ => throw .stepLimit
  | fuel + 1, g => do
    let g ← cliffordWithin bound verbose g
    let (g, i) ← gadget.exhaustWithin bound verbose g
    let (g, _) ← interiorCliffordWithin bound verbose g
    let (g, j) ← (pivotGadget anything).exhaustWithin bound verbose g
    if i + j = 0 then return g
    reduceRounds bound verbose fuel g

def fullReduceWithin : Run Diagram := do
  let (g, _) ← interiorCliffordWithin bound verbose g
  let (g, _) ← (pivotGadget anything).exhaustWithin bound verbose g
  reduceRounds bound verbose (bound g) g

def fullReduce : Run Diagram := fullReduceWithin Diagram.stepBound verbose g

end ZXCircuits.Strategy

namespace ZXCircuits.Strategy

open Rule

def fuseRounds (verbose : Bool) : Nat → Diagram → Run Diagram
  | 0, _ => throw .stepLimit
  | fuel + 1, g => do
    let (g, _) ← (fusion anything).exhaust verbose g
    let (g, i) ← (identity anything).exhaust verbose g
    if i = 0 then return g
    fuseRounds verbose fuel g

def teleport (verbose : Bool) (g : Diagram) : Run Diagram := do
  let g ← g.toGreen
  let g ← fuseRounds verbose g.stepBound g
  let g := { g with trackPhases := true }
  let kept ← g.copy false
  let work := { kept with
    master := some ⟨kept.phases, kept.phaseIndex, ∅⟩ }
  let reduced ← fullReduce verbose work
  match reduced.master with
  | some m => return { kept with phases := m.phases, phaseIndex := m.index }
  | none => return kept

end ZXCircuits.Strategy
