/-
  Copies of diagrams, and diagrams put into one another.

  A copy numbers its vertices from zero on and adds its edges in the order of `Diagram.edges`.
-/
import ZXCircuits.Diagram.Layout

namespace ZXCircuits.Diagram

abbrev Renumbering := Std.TreeMap Vertex Vertex

def addEdgesOf (g h : Diagram) (tab : Renumbering) : Attempt Diagram := do
  let es ← h.edges.mapM fun e => do
    let s ← orAbsent (tab.get? e.1)
    let t ← orAbsent (tab.get? e.2)
    return (e, (s, t))
  let g ← g.addEdges (es.map (·.2)) .regular
  es.foldlM (fun g (e, st) => g.setEdgeKind (edge st.1 st.2) (h.edgeKind e)) g

variable (h : Diagram) (g : Diagram)

def copyVertex (adjoint : Bool) (deepest : Coord) (acc : Diagram × Renumbering)
    (v : Vertex) : Attempt (Diagram × Renumbering) := do
  let p ← h.phaseAt v
  let (g, i) := acc.1.addVertex (← h.kind v) unset unset (if adjoint then p.neg else p)
  let g := match h.qubits.get? v with
    | some q => g.setQubit i q
    | none => g
  let g := match h.rows.get? v with
    | some r => g.setRow i (if adjoint then deepest.sub r else r)
    | none => g
  let g := ((h.data.get? v).getD []).foldl (fun g kv => g.setDatum i kv.1 kv.2) g
  return (g, acc.2.insert v i)

/-- A copy of the diagram, or of its adjoint: phases are negated, rows are reversed, inputs and outputs
    change places. -/
def copy (adjoint : Bool) : Attempt Diagram := do
  let start : Diagram := { trackPhases := h.trackPhases }
  let (g, tab) ← h.vertices.foldlM (copyVertex h adjoint h.depth) (start, ∅)
  let ins ← h.inputs.mapM fun i => orAbsent (tab.get? i)
  let outs ← h.outputs.mapM fun o => orAbsent (tab.get? o)
  let g := if adjoint then { g with inputs := outs, outputs := ins }
    else { g with inputs := ins, outputs := outs }
  g.addEdgesOf h tab

def adjoint : Attempt Diagram := h.copy true

def sameCoords (a b : List Coord) : Bool := a.all (·.isIn b) && b.all (·.isIn a)

def onWire (vs : List Vertex) (q : Coord) : Attempt Vertex := orOutOfRange (vs.find? fun v => (g.qubit v).same q)

/-- Replaces all between two rows by another diagram, glued to the vertices on them by their wire positions. -/
def replaceBetween (left right : Coord) (new : Diagram) : Attempt Diagram := do
  let vsLeft := g.vertices.filter fun v => (g.row v).same left
  let vsRight := g.vertices.filter fun v => (g.row v).same right
  if vsLeft.length ≠ new.inputs.length then throw .glueInputs
  if vsRight.length ≠ new.outputs.length then throw .glueOutputs
  if !sameCoords (vsLeft.map g.qubit) (new.inputs.map new.qubit) then throw .inputIndices
  if !sameCoords (vsRight.map g.qubit) (new.outputs.map new.qubit) then throw .outputIndices
  let g ← g.removeVertices (g.vertices.filter fun v =>
    left.less (g.row v) && (g.row v).less right)
  let joined ← (vsLeft.flatMap fun s => vsRight.map fun t => (s, t)).filterM
    fun st => g.connected st.1 st.2
  let g ← g.removeEdges (joined.map fun st => edge st.1 st.2)
  let shift := new.depth.sub (.int 1)
  let g := (g.vertices.filter fun v => right.atMost (g.row v)).foldl
    (fun g v => g.setRow v ((g.row v).add shift)) g
  let inner := new.vertices.filter fun v => !new.isBoundaryVertex v
  let (g, tab) ← inner.foldlM (fun (acc : Diagram × Renumbering) v => do
    let (g, i) := acc.1.addVertex (← new.kind v) (new.qubit v) ((new.row v).add left) (new.phase v)
    return (g, acc.2.insert v i)) (g, ∅)
  let tab ← new.inputs.foldlM (fun (tab : Renumbering) v => do
    return tab.insert v (← g.onWire vsLeft (new.qubit v))) tab
  let tab ← new.outputs.foldlM (fun (tab : Renumbering) v => do
    return tab.insert v (← g.onWire vsRight (new.qubit v))) tab
  g.addEdgesOf new tab

def carryHadamard (h : Diagram) (o : Vertex) : Attempt Diagram := do
  let e ← orOutOfRange (← g.incidentEdges o).head?
  if g.edgeKind e ≠ .hadamard then return h
  let i ← h.onWire h.inputs (g.qubit o)
  let e ← orOutOfRange (← h.incidentEdges i).head?
  h.toggleEdge e

def compose (g h : Diagram) : Attempt Diagram := do
  if !(g.qubitCount.same h.qubitCount) then throw .composeAmounts
  let g ← g.normalise
  let h ← (← h.copy false).normalise
  let h ← g.outputs.foldlM (fun h o => g.carryHadamard h o) h
  let d := g.depth
  g.replaceBetween (d.sub (.int 1)) d h

end ZXCircuits.Diagram
