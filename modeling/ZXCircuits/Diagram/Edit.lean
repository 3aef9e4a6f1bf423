/-
  Changing diagrams: vertices, edges, phases and positions.

  A loop at a vertex is stored once, so that taking it away fails.
-/
import ZXCircuits.Diagram.Basic

namespace ZXCircuits.Diagram

/-! ## Noting values -/

variable (g : Diagram) (v : Vertex) (e : Edge)

def setKind (k : VertexKind) : Diagram := { g with kinds := g.kinds.insert v k }

def setPhase (p : Exact) : Diagram := { g with phases := g.phases.insert v (.ratio (Rat.modTwo p.toRat)) }

def addToPhase (p : Exact) : Diagram := { g with phases := g.phases.insert v ((g.phase v).add p).modTwo }

def setQubit (q : Coord) : Diagram := { g with qubits := g.qubits.insert v q }

def setRow (r : Coord) : Diagram := { g with rows := g.rows.insert v r }

def setPosition (q r : Coord) : Diagram := (g.setQubit v q).setRow v r

def setDatum (key : String) (value : Json) : Diagram :=
  let t : Table String Json := (g.data.get? v).getD []
  { g with data := g.data.insert v (t.insert key value) }

/-! ## Vertices -/

def addBare : Diagram :=
  { g with
    adjacency := g.adjacency.insert g.next []
    kinds := g.kinds.insert g.next .boundary
    phases := g.phases.insert g.next (.int 0)
    next := g.next + 1 }

def addVertices (amount : Nat) : Diagram × List Vertex :=
  ((List.range amount).foldl (fun g _ => g.addBare) g, (List.range amount).map (· + g.next))

def startTracking : Diagram :=
  if g.trackPhases then
    let i := g.maxPhaseIndex + 1
    { g with
      maxPhaseIndex := i
      phaseIndex := g.phaseIndex.insert v i.toNat
      phaseMult := g.phaseMult.insert v 1 }
  else g

def addVertex (k : VertexKind) (q r : Coord) (p : Exact) : Diagram × Vertex :=
  let v := g.next
  let g := g.addBare
  let g := if k = .boundary then g else g.setKind v k
  let g := if q.same unset then g else g.setQubit v q
  let g := if r.same unset then g else g.setRow v r
  let g := if p.isZero then g else g.setPhase v p
  (g.startTracking v, v)

def dropNeighbour (adj : Table Vertex EdgeKind) (w : Vertex) : Attempt (Table Vertex EdgeKind) :=
  if adj.has w then .ok (adj.erase w) else .error .absent

def dropHalf (v w : Vertex) : Attempt Diagram := do
  let adj ← dropNeighbour (← g.adjacent v) w
  return { g with adjacency := g.adjacency.insert v adj }

def removeEdge : Attempt Diagram := do
  let g ← g.dropHalf e.1 e.2
  let g ← g.dropHalf e.2 e.1
  return { g with edgeCount := g.edgeCount - 1 }

def removeEdges (es : List Edge) : Attempt Diagram := es.foldlM removeEdge g

/-- Takes away a vertex with its edges; what is noted for it goes too, its place among the inputs and
    outputs stays. -/
def removeVertex : Attempt Diagram := do
  let g ← (← g.neighbours v).foldlM (fun g w => g.removeEdge (v, w)) g
  return { g with
    adjacency := g.adjacency.erase v
    kinds := g.kinds.erase v
    phases := g.phases.erase v
    qubits := g.qubits.erase v
    rows := g.rows.erase v
    phaseIndex := g.phaseIndex.erase v
    data := g.data.erase v }

def removeVertices (vs : List Vertex) : Attempt Diagram := vs.foldlM removeVertex g

def removeIsolated : Attempt Diagram := g.removeVertices (g.vertices.filter fun v => (g.nearby v).isEmpty)

/-! ## Edges -/

def setHalf (v w : Vertex) (k : EdgeKind) : Attempt Diagram := do
  let adj ← g.adjacent v
  return { g with adjacency := g.adjacency.insert v (adj.insert w k) }

def setEdgeKind (k : EdgeKind) : Attempt Diagram := do
  let g ← g.setHalf e.1 e.2 k
  g.setHalf e.2 e.1 k

def addEdge (k : EdgeKind) : Attempt Diagram := do
  let g ← g.setEdgeKind e k
  return { g with edgeCount := g.edgeCount + 1 }

def addEdges (es : List Edge) (k : EdgeKind) : Attempt Diagram := es.foldlM (fun g e => g.addEdge e k) g

def toggleEdge : Attempt Diagram := g.setEdgeKind e (g.edgeKind e).toggle

end ZXCircuits.Diagram
