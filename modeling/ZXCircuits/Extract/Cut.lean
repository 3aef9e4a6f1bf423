/-
  Connections between two sets of vertices as a bit matrix.

  `cutEdges` writes it as a product of two matrices of full rank and puts in a pair of new vertices for every unit of the rank.
-/
import ZXCircuits.BitMatrix.Gauss
import ZXCircuits.Diagram.Layout

namespace ZXCircuits.Diagram

variable (g : Diagram) (m : BitMatrix)

def connections (vs ws : List Vertex) : Attempt BitMatrix := do
  let rows ← ws.mapM fun w => vs.mapM fun v => do
    return if ← g.connected v w then (1 : Int) else 0
  return .ofRows rows

def cutRank (left right : List Vertex) : Attempt Nat := do
  return (← g.connections left right).rank

def disconnect (left right : List Vertex) : Attempt Diagram :=
  left.foldlM (fun g v => right.foldlM (fun g w => do
    if ← g.connected v w then g.removeEdge (edge v w) else return g) g) g

def makeRoom (row : Coord) : Diagram :=
  g.vertices.foldl (fun g v =>
    let r := g.row v
    if row.less r then g.setRow v (r.add (.int 2)) else g) g

def addPairs (g : Diagram) (row : Coord) : List Coord → Attempt (Diagram × List (Vertex × Vertex))
  | [] => .ok (g, [])
  | q :: rest => do
    let (g, v) := g.addVertex .z q (row.add (.int 1)) (.int 0)
    let (g, w) := g.addVertex .z q (row.add (.int 2)) (.int 0)
    let g ← g.addEdge (v, w) .hadamard
    let (g, ps) ← addPairs g row rest
    return (g, (v, w) :: ps)

def joinBy (pick : Nat → Nat → Attempt Edge) : Attempt Diagram :=
  (List.range m.numRows).foldlM (fun g i => (List.range m.numCols).foldlM (fun g j => do
    if m.bit i j then g.addEdge (← pick i j) .hadamard else return g) g) g

/-- Replaces the edges between two sets of vertices by pairs of new vertices on the given wires, or on the first ones. -/
def cutEdges (left right : List Vertex) (wires : Option (List Coord)) : Attempt (Diagram × List Vertex) := do
  let m ← g.connections left right
  let row ← match Coord.maximum (left.map g.row) with
    | some r => pure r
    | none => throw .badValue
  let g := g.makeRoom row
  let (x, y) ← m.factor
  let g ← g.disconnect left right
  let wires := wires.getD ((List.range y.numRows).map fun (i : Nat) => Coord.int i)
  let (g, ps) ← g.addPairs row wires
  let at_ (vs : List Vertex) (i : Nat) : Attempt Vertex := orOutOfRange vs[i]?
  let g ← g.joinBy y fun i j => do return (← at_ left j, ← at_ (ps.map (·.1)) i)
  let g ← g.joinBy x fun i j => do return (← at_ (ps.map (·.2)) j, ← at_ right i)
  return (g, ps.map (·.1))

def splitByRow (v : Vertex) : Attempt (Diagram × Vertex) := do
  let row := g.row v
  let (g, w) := g.addVertex .z (g.qubit v) (row.sub (.int 1)) (.int 0)
  let g ← (← g.neighbours v).foldlM (fun g n => do
    if (g.row n).less row then
      let e := edge n v
      (← g.addEdge (n, w) (g.edgeKind e)).removeEdge e
    else return g) g
  return (← g.addEdge (w, v) .regular, w)

/-- Makes the edges between two sets of vertices those of a matrix, whose rows stand for `right` and columns
    for `left`. -/
def connectBy (left right : List Vertex) (k : EdgeKind) : Attempt Diagram :=
  (right.zip (List.range right.length)).foldlM (fun g (w, i) =>
    (left.zip (List.range left.length)).foldlM (fun g (v, j) => do
      let row ← orOutOfRange m.data[i]?
      let bit := (← orOutOfRange row[j]?) ≠ 0
      let joined ← g.connected w v
      if bit && !joined then g.addEdge (w, v) k
      else if !bit && joined then g.removeEdge (w, v)
      else return g) g) g

def shieldOutput (o : Vertex) (q r : Coord) : Attempt (Diagram × Vertex) := do
  let (g, w) := g.addVertex .z q (r.sub (.int 1)) (.int 0)
  let n ← orOutOfRange (← g.neighbours o).head?
  let e := edge n o
  let k := g.edgeKind e
  let g ← g.removeEdge e
  let g ← g.addEdge (n, w) .hadamard
  return (← g.addEdge (w, o) k.toggle, w)

end ZXCircuits.Diagram
