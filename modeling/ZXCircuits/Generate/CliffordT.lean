/-
  Random diagrams and circuits, and circuits that are equal to the identity.

  All generators take their draws from any source, so that what holds for every source holds for every sequence of draws.
-/
import ZXCircuits.Random
import ZXCircuits.Circuit.ToDiagram

namespace ZXCircuits.Generate

variable (qubits : Int) (eighths : Bool)

def identity (depth : Coord) : Attempt Diagram :=
  (List.range qubits.toNat).foldlM (fun (g : Diagram) (i : Nat) => do
    let (g, v) := g.addVertex .boundary (.int i) (.int 0) (.int 0)
    let (g, w) := g.addVertex .boundary (.int i) depth (.int 0)
    let g ← g.addEdge (v, w) .regular
    return { g with inputs := g.inputs ++ [v], outputs := g.outputs ++ [w] }) {}

/-! ## Sketches -/

/-- A circuit diagram in the making: vertices by kind, wire and row, the edges of both kinds, phases, and the last vertex
    on each wire. -/
structure Sketch where
  nodes : Array (VertexKind × Nat × Nat)
  regular : List Edge := []
  hadamard : List Edge := []
  phases : List (Vertex × Rat) := []
  ends : Array Vertex
  row : Nat

namespace Sketch

def start (qubits : Nat) : Sketch :=
  { nodes := (Array.range qubits).map fun i => (.boundary, i, 0)
    ends := Array.range qubits
    row := 1 }

variable (s : Sketch) (k : VertexKind) (wire : Nat)

def endOf : Vertex := s.ends.getD wire 0

def extend (e : EdgeKind) : Sketch :=
  let v := s.nodes.size
  let edge := (s.endOf wire, v)
  { s with
    nodes := s.nodes.push (k, wire, s.row)
    regular := if e = .regular then edge :: s.regular else s.regular
    hadamard := if e = .regular then s.hadamard else edge :: s.hadamard
    ends := s.ends.setIfInBounds wire v }

def link (a b : Vertex) : Sketch := { s with regular := (a, b) :: s.regular }

def nextRow : Sketch := { s with row := s.row + 1 }

def fullRow : Sketch := ((List.range s.ends.size).foldl (fun s i => s.extend k i .regular) s).nextRow

def toDiagram : Attempt Diagram := do
  let qubits := s.ends.size
  let g := s.nodes.toList.foldl (fun (g : Diagram) (k, q, r) =>
    (g.addVertex k (.int q) (.int r) (.int 0)).1) {}
  let g := s.phases.reverse.foldl (fun g (v, p) => g.setPhase v (.ratio p)) g
  let g ← g.addEdges s.regular.reverse .regular
  let g ← g.addEdges s.hadamard.reverse .hadamard
  let last := s.nodes.size
  return { g with
    inputs := List.range qubits
    outputs := (List.range qubits).map fun i => last - i - 1 }

end Sketch

/-! ## Draws -/

variable {σ : Type} [Random.Source σ]

def between (a b : Int) : RandomRun σ Int := do
  let k ← RandomRun.draw (Random.below (b - a + 1))
  return a + k

def twoWires : RandomRun σ (Nat × Nat) := do
  let c ← between 0 (qubits - 1)
  let t ← between 0 (qubits - 2)
  return (c.toNat, if c ≤ t then t.toNat + 1 else t.toNat)

def accept (p : Rat) : RandomRun σ Bool := do
  return decide ((← RandomRun.drawPure Random.unit) < p)

def drawPhase : RandomRun σ Rat := do
  if eighths then return (← between 1 8) / 4
  return (← between 1 4) / 2

/-! ## Gates on pairs of wires -/

def times (step : Sketch → RandomRun σ Sketch) : Nat → Sketch → RandomRun σ Sketch
  | 0, s => pure s
  | n + 1, s => do times step n (← step s)

def addNot (s : Sketch) : RandomRun σ Sketch := do
  let (c, t) ← twoWires qubits
  let v := s.nodes.size
  return (((s.extend .z c .regular).extend .x t .regular).link v (v + 1)).nextRow

def nots (qubits depth : Int) : RandomRun σ Diagram := do
  let s := (Sketch.start qubits.toNat).fullRow .z
  let s ← times (addNot qubits) depth.toNat s
  RandomRun.ofExcept ((s.fullRow .z).fullRow .boundary).toDiagram

def addPhase (v : Vertex) (s : Sketch) : RandomRun σ Sketch := do
  return { s with phases := (v, ← drawPhase eighths) :: s.phases }

def drawEdge (noHadamard : Bool) : RandomRun σ EdgeKind := do
  if noHadamard then return .regular
  return if ← accept (1 / 5) then .hadamard else .regular

def addPair (noHadamard eighths : Bool) (s : Sketch) : RandomRun σ Sketch := do
  let (c, t) ← twoWires qubits
  let v := s.nodes.size
  let s ← if ← accept (2 / 5) then do
      let _ ← if noHadamard then pure true else accept 1
      let s := s.link v (v + 1)
      let s ← if ← accept (3 / 5) then addPhase eighths v s else pure s
      if ← accept (3 / 5) then addPhase eighths (v + 1) s else pure s
    else do
      let s ← addPhase eighths v s
      addPhase eighths (v + 1) s
  let e₁ ← drawEdge noHadamard
  let e₂ ← drawEdge noHadamard
  return ((s.extend .z c e₁).extend .x t e₂).nextRow

def cliffords (qubits depth : Int) (noHadamard eighths : Bool) : RandomRun σ Diagram := do
  let s := (Sketch.start qubits.toNat).fullRow .z
  let s ← times (addPair qubits noHadamard eighths) depth.toNat s
  RandomRun.ofExcept ((s.fullRow .z).fullRow .boundary).toDiagram

/-- Probabilities of the four sorts of gates; what is left over is shared by those that are not given. -/
structure Chances where
  t : Option Binary64 := none
  s : Option Binary64 := none
  hsh : Option Binary64 := none
  cnot : Option Binary64 := none

/-- From which draw on a gate is of a sort. -/
structure Thresholds where
  cnot : Rat
  hsh : Rat
  s : Rat

def Chances.thresholds (c : Chances) : Attempt Thresholds := do
  let one := Binary64.ofRat 1
  let all := [c.t, c.s, c.hsh, c.cnot]
  let rest := all.foldl (fun r p => match p with
    | some p => r.sub p
    | none => r) one
  let missing := all.countP Option.isNone
  if rest.value < 0 then throw .probabilities
  let share := rest.div (Binary64.ofRat missing)
  let cnot := one.sub (c.cnot.getD share)
  let hsh := cnot.sub (c.hsh.getD share)
  let s := hsh.sub (c.s.getD share)
  return ⟨cnot.value, hsh.value, s.value⟩

/-- A diagram that grows row by row, with the last vertex on each wire. -/
structure Growing where
  diagram : Diagram := {}
  ends : Array Vertex
  row : Int := 0

namespace Growing

variable (s : Growing) (k : VertexKind) (wire : Nat)

def endOf : Vertex := s.ends.getD wire 0

def extend (row : Int) : Attempt (Growing × Vertex) := do
  let (g, v) := s.diagram.addVertex k (.int wire) (.int row) (.int 0)
  let g ← g.addEdge (s.endOf wire, v) .regular
  return ({ s with diagram := g, ends := s.ends.setIfInBounds wire v }, v)

def fullRow (outputs : Bool) : Attempt Growing := do
  let s ← (List.range s.ends.size).foldlM (fun s i => do
    let (s, v) ← s.extend k i s.row
    return if outputs then
        { s with diagram := { s.diagram with outputs := s.diagram.outputs ++ [v] } }
      else s) s
  return { s with row := s.row + 1 }

def start (qubits : Nat) : Growing :=
  let g := (List.range qubits).foldl (fun (g : Diagram) (i : Nat) =>
    let (g, v) := g.addVertex .boundary (.int i) (.int 0) (.int 0)
    { g with inputs := g.inputs ++ [v] }) {}
  { diagram := g, ends := Array.range qubits, row := 1 }

end Growing

variable {σ : Type} [Random.Source σ]

def addGate (c : Thresholds) (s : Growing) : RandomRun σ Growing := do
  let p ← RandomRun.drawPure Random.unit
  let q ← RandomRun.draw (Random.below qubits)
  let row := s.row
  let (s, v) ← RandomRun.ofExcept (s.extend .z q row)
  let s := { s with row := row + 1 }
  let g := s.diagram
  if c.cnot < p then
    let k ← RandomRun.draw (Random.below (qubits - 1))
    let k := if q ≤ k then k + 1 else k
    RandomRun.ofExcept do
      let (s, w) ← s.extend .x k row
      return { s with diagram := ← s.diagram.addEdge (v, w) .regular }
  else if c.hsh < p then
    return { s with diagram := (g.setKind v .x).setPhase v (.ratio (1 / 2)) }
  else if c.s < p then return { s with diagram := g.setPhase v (.ratio (1 / 2)) }
  else return { s with diagram := g.setPhase v (.ratio (1 / 4)) }

def growTimes (step : Growing → RandomRun σ Growing) : Nat → Growing → RandomRun σ Growing
  | 0, s => pure s
  | n + 1, s => do growTimes step n (← step s)

def cliffordT (qubits depth : Int) (chances : Chances) : RandomRun σ Diagram := do
  let limits ← RandomRun.ofExcept chances.thresholds
  let s ← RandomRun.ofExcept ((Growing.start qubits.toNat).fullRow .z false)
  let s ← growTimes (addGate qubits limits) depth.toNat s
  RandomRun.ofExcept do
    let s ← s.fullRow .z false
    let s ← s.fullRow .boundary true
    return s.diagram

def phasePolynomialIdentity : Attempt Diagram :=
  let later (i : Nat) : List Nat := (List.range 4).filter (i < ·)
  let gates := (List.range 4).flatMap fun (i : Nat) =>
    Gate.zPhase i (3 / 4) :: (later i).flatMap fun (j : Nat) =>
      Gate.parity (5 / 4) [i, j] :: (later j).map fun (k : Nat) => Gate.parity (7 / 4) [i, j, k]
  Circuit.toDiagram { qubits := 4, gates := Gate.parity (1 / 4) [0, 1, 2, 3] :: gates } true

def commutingControls (a b : Rat) : Attempt Diagram := do
  let first : Circuit :=
    { qubits := 2
      gates := [.not 0, .zPhase 0 b, .zPhase 1 b, .parity (-b) [0, 1], .not 0] }
  let second : Circuit :=
    { qubits := 2
      gates := [.zPhase 1 (3 / 2), .xPhase 1 (3 / 2), .zPhase 0 a, .zPhase 1 a, .parity (-a) [0, 1], .xPhase 1 (1 / 2), .zPhase 1 (1 / 2)] }
  let c ← first.append second []
  let c ← c.append (← first.adjoint) []
  (← c.append (← second.adjoint) []).toDiagram true

def twice (gates : List Gate) : Attempt Diagram := Circuit.toDiagram { qubits := 2, gates := gates ++ gates } true

def twoQubitIdentity : Attempt Diagram :=
  twice [.not 0, .t 1 true, .s 1 true, .had 1, .t 1 true, .cnot 0 1, .not 0, .t 1 false, .had 1, .s 1 false, .t 1 false, .cnot 0 1]

def otherTwoQubitIdentity : Attempt Diagram :=
  twice [.cnot 0 1, .not 0, .t 1 false, .had 1, .t 1 false, .had 1, .t 1 true, .cnot 0 1, .not 0, .t 1 false,
    .had 1, .t 1 true, .had 1, .t 1 true]

end ZXCircuits.Generate
