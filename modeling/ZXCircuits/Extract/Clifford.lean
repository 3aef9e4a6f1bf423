/-
  Turning the connections between two rows into controlled nots.

  Neighbouring rows of green vertices joined by Hadamard edges stand for a linear map, whose elimination gives controlled nots.
-/
import ZXCircuits.Extract.Cut
import ZXCircuits.Diagram.Compose

namespace ZXCircuits

/-- A diagram of controlled nots in the making. -/
structure NotLayout where
  diagram : Diagram := {}
  /-- The last vertex on each wire. -/
  ends : Array Vertex
  row : Int := 0
  /-- Whether a swap is drawn as three controlled nots. -/
  swapsAsNots : Bool

namespace NotLayout

variable (l : NotLayout) (wire : Int) (k : VertexKind)

def addLoose : NotLayout × Vertex :=
  let (g, v) := l.diagram.addVertex k (.int wire) (.int l.row) (.int 0)
  ({ l with diagram := g }, v)

def endOf : Attempt (Nat × Vertex) := do
  let i ← wrapIndex l.ends.size wire
  return (i, ← orOutOfRange l.ends[i]?)

def addEdge (l : NotLayout) (e : Edge) : Attempt NotLayout := do
  return { l with diagram := ← l.diagram.addEdge e .regular }

def addNode : Attempt (NotLayout × Vertex) := do
  let (l, v) := l.addLoose wire k
  let (i, last) ← l.endOf wire
  let l ← l.addEdge (last, v)
  return ({ l with ends := l.ends.setIfInBounds i v }, v)

def start (qubits : Int) (swapsAsNots : Bool) : NotLayout :=
  let wires := (List.range qubits.toNat).map Int.ofNat
  let l := wires.foldl (fun (l : NotLayout) w =>
    let (l, v) := l.addLoose w .boundary
    { l with diagram := { l.diagram with inputs := l.diagram.inputs ++ [v] } })
    { ends := Array.range qubits.toNat, swapsAsNots := swapsAsNots }
  { l with row := 1 }

def finish (qubits : Int) : Attempt NotLayout := do
  let wires := (List.range qubits.toNat).map Int.ofNat
  let l ← wires.foldlM (fun l w => do
    let (l, v) ← l.addNode w .boundary
    return { l with diagram := { l.diagram with outputs := l.diagram.outputs ++ [v] } }) l
  return { l with row := l.row + 1 }

def addRow (a b : Int) : Attempt NotLayout := do
  let (l, _) ← l.addNode a .z
  let (l, _) ← l.addNode b .x
  let l ← l.addEdge ((← l.endOf a).2, (← l.endOf b).2)
  return { l with row := l.row + 1 }

def swapRows (a b : Int) : Attempt NotLayout := do
  if l.swapsAsNots then
    let l ← l.addRow a b
    let l ← l.addRow b a
    l.addRow a b
  else
    let (l, _) ← l.addNode a .z
    let (l, _) ← l.addNode b .z
    let l := { l with row := l.row + 1 }
    let (l, v) := l.addLoose a .z
    let l ← l.addEdge ((← l.endOf b).2, v)
    let (l, w) := l.addLoose b .z
    let l ← l.addEdge ((← l.endOf a).2, w)
    let (i, _) ← l.endOf a
    let (j, _) ← l.endOf b
    return { l with ends := (l.ends.setIfInBounds i v).setIfInBounds j w, row := l.row + 1 }

end NotLayout

end ZXCircuits

namespace ZXCircuits.Diagram

variable (g : Diagram) (vs : List Vertex) (s : TwoRows)

def latest : List Vertex → Option Vertex
  | [] => none
  | v :: vs => some (vs.foldl (fun best w => if (g.row best).less (g.row w) then w else best) v)

def earliest : List Vertex → Option Vertex
  | [] => none
  | v :: vs => some (vs.foldl (fun best w => if (g.row w).less (g.row best) then w else best) v)

def orBadValue {α : Type} : Option α → Attempt α
  | some a => .ok a
  | none => .error .badValue

def onlyOf : Attempt Vertex :=
  if 1 < vs.length then .error .manyNeighbours else orOutOfRange vs.head?

def missing (q : Nat) : Bool :=
  match vs[q]? with
  | some v => !((g.qubit v).same (.int q))
  | none => true

def putAt {α : Type} (xs : List α) (i : Nat) (x : α) : List α := xs.take i ++ x :: xs.drop i

structure TwoRows where
  diagram : Diagram
  left : List Vertex
  right : List Vertex

def fillLeft (left right : Coord) (q : Nat) : Attempt (TwoRows × Vertex) := do
  let g := s.diagram
  let onWire (v : Vertex) : Bool := (g.qubit v).same (.int q)
  let before ← orBadValue (g.latest (g.vertices.filter fun v => onWire v && (g.row v).less left))
  let beyond := (← g.neighbours before).filter fun n => right.atMost (g.row n)
  let after ← match g.earliest (beyond.filter onWire) with
    | some v => pure v
    | none => onlyOf beyond
  let e := edge before after
  let k := g.edgeKind e
  let g ← g.removeEdge e
  let (g, v) := g.addVertex .z (.int q) left (.int 0)
  let g ← g.addEdge (before, v) k.toggle
  let g ← g.addEdge (v, after) .hadamard
  return ({ s with diagram := g, left := putAt s.left q v }, after)

/-- Puts a missing vertex of a wire on the right row, behind `v` on the left row and before `after` if that is known. -/
def fillRight (left right : Coord) (q : Nat) (v : Vertex) (after : Option Vertex) : Attempt TwoRows := do
  let g := s.diagram
  let onWire (v : Vertex) : Bool := (g.qubit v).same (.int q)
  let after ← match after with
    | some a => pure a
    | none => orBadValue (g.earliest (g.vertices.filter fun v => onWire v && right.less (g.row v)))
  let neighbours ← g.neighbours after
  let before ← match g.latest (neighbours.filter fun n => onWire n && (g.row n).atMost left) with
    | some b => if v ≠ b then throw .mismatchedVertices else pure b
    | none => onlyOf (neighbours.filter fun n => (g.row n).same left)
  let e := edge before after
  let k := g.edgeKind e
  let g ← g.removeEdge e
  let (g, w) := g.addVertex .z (.int q) right (.int 0)
  let g ← g.addEdge (before, w) .hadamard
  let g ← g.addEdge (w, after) k.toggle
  return { s with diagram := g, right := putAt s.right q w }

def fillWire (left right : Coord) (s : TwoRows) (q : Nat) : Attempt TwoRows := do
  let (s, after) ← if s.diagram.missing s.left q then do
      let (s, a) ← fillLeft s left right q
      pure (s, some a)
    else pure (s, none)
  let v ← orOutOfRange s.left[q]?
  if s.diagram.missing s.right q then fillRight s left right q v after else return s

def turnRed (left right : Coord) (g : Diagram) (v : Vertex) : Attempt Diagram := do
  let g := g.setKind v .x
  (← g.incidentEdges v).foldlM (fun g e =>
    if (g.row e.1).atMost right && (g.row e.2).atMost left then pure g else g.toggleEdge e) g

/-- Replaces the connections between two rows by controlled nots. -/
def extractRows (left right : Coord) (width : Int) : Attempt Diagram := do
  let qubits ← match g.qubitCount with
    | .int n => pure n
    | .real _ => throw .misapplied
  let onRow (r : Coord) : List Vertex := g.byQubit (g.vertices.filter fun v => (g.row v).same r)
  let s ← (List.range qubits.toNat).foldlM (fillWire left right) ⟨g, onRow left, onRow right⟩
  if s.left.length ≠ s.right.length then throw .sideAmounts
  let m ← s.diagram.connections s.left s.right
  if (m.rank : Int) ≠ qubits then throw .rankMismatch
  let g ← s.right.foldlM (turnRed left right) s.diagram
  let r ← m.gauss true width
  let l ← r.additions.foldlM (fun l a => l.addRow a.1 a.2) (NotLayout.start qubits true)
  let l ← l.finish qubits
  g.replaceBetween left right (← l.diagram.adjoint)

end ZXCircuits.Diagram
