/-
  The diagram of a circuit, and reading a circuit off a diagram.

  A diagram looks like a circuit if every vertex that is no input has one neighbour on an earlier row, on the same wire, and its
  connections on its own row are controlled gates.  While a diagram is made every wire has an open end, its last vertex and the row
  that is free next, and a gate puts its vertices behind the open ends.
-/
import ZXCircuits.Circuit.Basic
import ZXCircuits.Diagram.Edit

namespace ZXCircuits.Circuit

def wireOf (c : Coord) : Attempt Int :=
  match c.toInt? with
  | some n => .ok n
  | none => .error .unsupported

def phaseGates (isZ split : Bool) (wire : Int) (p : Rat) : List Gate :=
  let general := if isZ then Gate.zPhase wire p else Gate.xPhase wire p
  if p ≠ 0 ∧ !split then [general]
  else if isZ && p.den == 2 then [Gate.s wire (p.num == 3)]
  else if isZ && p.den == 4 then
    if p.num = 1 ∨ p.num = 7 then [Gate.t wire (p.num == 7)]
    else if p.num = 3 ∨ p.num = 5 then [Gate.z wire, Gate.t wire (p.num == 3)]
    else []
  else if p = 1 then [if isZ then Gate.z wire else Gate.not wire]
  else if p ≠ 0 then [general]
  else []

def verticalGate (k₁ k₂ : VertexKind) (e : EdgeKind) (q₁ q₂ : Int) : Attempt Gate :=
  if k₁ = k₂ then
    if e ≠ .hadamard then .error .sameTypeVertical
    else .ok (if k₁ = .z then Gate.cz q₂ q₁ else Gate.cx q₂ q₁)
  else if e ≠ .regular then .error .differentTypeVertical
  else .ok (if k₁ = .z then Gate.cnot q₁ q₂ else Gate.cnot q₂ q₁)

def vertexGates (g : Diagram) (split : Bool) (row : Coord) (v : Vertex) : Attempt (List Gate) := do
  let q ← g.qubitAt v
  let p ← g.phaseAt v
  let k ← g.kind v
  let neighbours ← g.neighbours v
  let earlier ← neighbours.filterM fun w => do return (← g.rowAt w).less row
  match earlier with
  | [n] =>
    if !((← g.qubitAt n).same q) then throw .crossQubit
    let wire ← wireOf q
    let had := if g.edgeKind (Diagram.edge n v) = .hadamard then [Gate.had wire] else []
    if k = .boundary then return had
    let level ← neighbours.filterM fun w => do return (← g.rowAt w).same row && decide (w < v)
    let vertical ← level.mapM fun w => do
      let k₂ ← g.kind w
      let q₂ ← wireOf (← g.qubitAt w)
      verticalGate k k₂ (g.edgeKind (Diagram.edge v w)) wire q₂
    return had ++ phaseGates (k = .z) split wire p.toRat ++ vertical
  | _ => throw .multipleParents

/-- Reads a circuit off a diagram, row by row.  With `split` phases become named gates where there are
    such. -/
def ofDiagram (g : Diagram) (split : Bool) : Attempt Circuit := do
  let qubits ← wireOf g.qubitCount
  let vs := g.vertices.filter fun v => !g.inputs.contains v
  let rows := Coord.distinct (vs.map g.row)
  let gates ← rows.mapM fun r => do
    return (← (vs.filter fun v => (g.row v).same r).mapM (vertexGates g split r)).flatten
  return { qubits := qubits, gates := gates.flatten }

end ZXCircuits.Circuit

namespace ZXCircuits

structure WireEnd where
  position : Int
  vertex : Vertex
  row : Int

/-- A diagram under construction with the open ends of its wires, by label. -/
structure Weaving where
  diagram : Diagram
  wires : Table Int WireEnd

namespace Weaving

variable (w : Weaving) (label : Int) (compress : Bool)

def wire : Attempt WireEnd := orAbsent (w.wires.find? label)

def addNode (k : VertexKind) (row : Int) (p : Rat) (e : EdgeKind) : Attempt (Weaving × Vertex) := do
  let wire ← w.wire label
  let (g, v) := w.diagram.addVertex k (.int wire.position) (.int row) (.ratio p)
  let g ← g.addEdge (wire.vertex, v) e
  return ({ diagram := g, wires := w.wires.insert label { wire with vertex := v } }, v)

def setRow (label row : Int) : Attempt Weaving := do
  let wire ← w.wire label
  return { w with wires := w.wires.insert label { wire with row := row } }

def lastRow : Attempt Int :=
  match w.wires with
  | [] => .error .badValue
  | (_, e) :: rest => .ok (rest.foldl (fun r kv => max r kv.2.row) e.row)

def levelTo (row : Int) : Weaving := { w with wires := w.wires.map fun kv => (kv.1, { kv.2 with row := row }) }

def level : Attempt Weaving := do
  return w.levelTo (← w.lastRow)

def single (k : VertexKind) (p : Rat) (e : EdgeKind) : Attempt Weaving := do
  let wire ← w.wire label
  let (w, _) ← w.addNode label k wire.row p e
  w.setRow label (wire.row + 1)

def pair (control target : Int) (kc kt : VertexKind) (e : EdgeKind) : Attempt Weaving := do
  let t ← w.wire target
  let c ← w.wire control
  let row := max t.row c.row
  let (w, vt) ← w.addNode target kt row 0 .regular
  let (w, vc) ← w.addNode control kc row 0 .regular
  let w := { w with diagram := ← w.diagram.addEdge (vt, vc) e }
  let w ← w.setRow target (row + 1)
  w.setRow control (row + 1)

def basic (g : Gate) : Attempt Weaving :=
  match g.op with
  | .had t => w.single t .z 0 .hadamard
  | .rotation k t p => w.single t (if k.isZ then .z else .x) p .regular
  | .pair .cnot c t => w.pair c t .z .x .regular
  | .pair .cz c t => w.pair c t .z .z .hadamard
  | .pair .cx c t => w.pair c t .x .x .hadamard
  | _ => .error .unsupported

def openAncilla : Attempt Weaving := do
  if w.wires.has label then throw (.ancillaInUse (toString label))
  let row ← w.lastRow
  let position : Int := w.wires.length
  let w := w.levelTo row
  let (g, v) := w.diagram.addVertex .z (.int position) (.int row) (.int 0)
  return { diagram := g, wires := w.wires.insert label ⟨position, v, row + 1⟩ }

def closeAncilla : Attempt Weaving := do
  match w.wires.find? label with
  | none => throw (.labelNotInUse (toString label))
  | some wire =>
    let (g, v) := w.diagram.addVertex .z (.int wire.position) (.int wire.row) (.int 0)
    let g ← g.addEdge (wire.vertex, v) .regular
    let row ← w.lastRow
    let w := w.levelTo (row + 1)
    return { diagram := g, wires := w.wires.erase label }

def align (w : Weaving) : Attempt Weaving :=
  if compress then pure w else w.level

def gate (w : Weaving) (g : Gate) : Attempt Weaving := do
  match g.op with
  | .initAncilla l => w.openAncilla l
  | .postSelect l => w.closeAncilla l
  | _ =>
    let w ← w.align compress
    let w ← (← g.expand).foldlM basic w
    w.align compress

def addInput : Weaving :=
  let (g, v) := w.diagram.addVertex .boundary (.int label) (.int 0) (.int 0)
  { diagram := { g with inputs := g.inputs ++ [v] }
    wires := w.wires.insert label ⟨label, v, 1⟩ }

def start (labels : List Int) : Weaving := labels.foldl addInput ⟨{}, []⟩

def addOutput (row : Int) (g : Diagram) (wire : WireEnd) : Attempt Diagram :=
  let (g, v) := g.addVertex .boundary (.int wire.position) (.int row) (.int 0)
  { g with outputs := g.outputs ++ [v] }.addEdge (wire.vertex, v) .regular

def finish : Attempt Diagram := do
  let row ← w.lastRow
  (Table.values w.wires).foldlM (addOutput row) w.diagram

end Weaving

def Circuit.toDiagram (c : Circuit) (compress : Bool) : Attempt Diagram := do
  let w ← c.gates.foldlM (Weaving.gate compress) (Weaving.start c.wires)
  w.finish

end ZXCircuits
