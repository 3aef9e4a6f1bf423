/-
  Positions of vertices: rows without gaps, inputs and outputs at the ends.
-/
import ZXCircuits.Diagram.Edit

namespace ZXCircuits.Diagram

variable (g : Diagram) (vs : List Vertex)

def packRows : Diagram :=
  let vs := g.vertices
  let ranks := Coord.ranks (vs.map g.row)
  vs.foldl (fun h v => h.setRow v (.int ((Coord.rankIn ranks (g.row v)).getD 0))) g

def byQubit : List Vertex := vs.mergeSort fun a b => (g.qubit a).atMost (g.qubit b)

/-- Without inputs and outputs, makes the boundary vertices of the first row inputs and those of the last row outputs. -/
def detectBoundary : Diagram :=
  if !g.inputs.isEmpty || !g.outputs.isEmpty then g
  else
    let nodes := (g.vertices.filter fun v => g.kinds.get? v = some .boundary).map fun v => (v, g.row v)
    let first := nodes.foldl (fun m n => if n.2.less m then n.2 else m) (.int 100000)
    let last := nodes.foldl (fun m n => if m.less n.2 then n.2 else m) (.int (-100000))
    let at_ (r : Coord) : List Vertex := g.byQubit ((nodes.filter fun n => n.2.same r).map (·.1))
    { g with inputs := at_ first, outputs := at_ last }

def insertNext (b n : Vertex) (q r : Coord) : Attempt (Diagram × Vertex) := do
  let e := edge b n
  let t := g.edgeKind e
  let g ← g.removeEdge e
  let (g, v) := g.addVertex .z q r (.int 0)
  let g ← g.addEdge (b, v) t.toggle
  let g ← g.addEdge (v, n) .hadamard
  return (g, v)

def placeInput (i : Vertex) (q : Coord) : Attempt (Diagram × Vertex) := do
  let g := g.setPosition i q (.int 0)
  let n ← orOutOfRange (← g.neighbours i).head?
  if (← g.kind n).isSpider then return (g.setPosition n q (.int 1), n)
  g.insertNext i n q (.int 1)

/-- Puts an output on the last row and its neighbour on the one before; a neighbour that is next to an
    input gets a vertex in between. -/
def placeOutput (claimed : List Vertex) (o : Vertex) (q last : Coord) : Attempt Diagram := do
  let g := g.setPosition o q (last.add (.int 1))
  let n ← orOutOfRange (← g.neighbours o).head?
  if claimed.contains n then return (← g.insertNext o n q last).1
  return g.setPosition n q last

def numbered : List (Vertex × Coord) := vs.zip ((List.range vs.length).map fun (k : Nat) => Coord.int k)

/-- Puts the inputs and outputs, and the vertices next to them, at the ends of the wires in order.
    Diagrams with few rows are left as they are. -/
def normalise : Attempt Diagram := do
  let g := if g.inputs.isEmpty then g.detectBoundary else g
  let last := g.depth.sub (.int 1)
  if last.atMost (.int 2) then return g
  let (g, claimed) ← (numbered (g.byQubit g.inputs)).foldlM
    (fun (acc : Diagram × List Vertex) (i, q) => do
      let (g, n) ← acc.1.placeInput i q
      return (g, n :: acc.2)) (g, [])
  let g ← (numbered (g.byQubit g.outputs)).foldlM
    (fun g (o, q) => g.placeOutput claimed o q last) g
  return g.packRows

end ZXCircuits.Diagram
