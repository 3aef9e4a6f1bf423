/-
  Diagrams: open graphs of coloured vertices with phases.

  Vertices are numbers that are not used again, and list their neighbours in the order in which the edges came in.  At most one edge
  joins two vertices; adding it again counts once more.  Kinds, phases and positions are kept beside the adjacency, also for numbers
  that are no vertices.
-/
import ZXCircuits.Table
import ZXCircuits.Number.Coord
import ZXCircuits.Format.Json
import Std.Data.TreeMap

namespace ZXCircuits

abbrev Vertex := Nat

abbrev Edge := Vertex × Vertex

/-- The kinds of vertices: the boundary, the two colours, and codes without a meaning. -/
inductive VertexKind where
  | boundary
  | z
  | x
  | other (code : Int)
  deriving DecidableEq, Repr, Inhabited

namespace VertexKind

def code : VertexKind → Int
  | boundary => 0
  | z => 1
  | x => 2
  | other c => c

def ofCode (c : Int) : VertexKind :=
  if c = 0 then boundary else if c = 1 then z else if c = 2 then x else other c

def isSpider : VertexKind → Bool
  | z | x => true
  | _ => false

end VertexKind

/-- The kinds of edges.  `absent` stands for no edge, and for an edge that counts as none. -/
inductive EdgeKind where
  | absent
  | regular
  | hadamard
  | other (code : Int)
  deriving DecidableEq, Repr, Inhabited

namespace EdgeKind

def code : EdgeKind → Int
  | absent => 0
  | regular => 1
  | hadamard => 2
  | other c => c

def ofCode (c : Int) : EdgeKind :=
  if c = 0 then absent else if c = 1 then regular else if c = 2 then hadamard else other c

def toggle : EdgeKind → EdgeKind
  | regular => hadamard
  | hadamard => regular
  | k => ofCode (3 - k.code)

end EdgeKind

/-- The phases of a diagram whose shape is kept, the phase number of each vertex, and which vertices stand for other ones. -/
structure PhaseMaster where
  phases : Std.TreeMap Vertex Exact
  index : Std.TreeMap Vertex Nat
  phantoms : Std.TreeMap Vertex (Vertex × Nat)

structure Diagram where
  adjacency : Std.TreeMap Vertex (Table Vertex EdgeKind) := ∅
  kinds : Std.TreeMap Vertex VertexKind := ∅
  phases : Std.TreeMap Vertex Exact := ∅
  qubits : Std.TreeMap Vertex Coord := ∅
  rows : Std.TreeMap Vertex Coord := ∅
  data : Std.TreeMap Vertex (Table String Json) := ∅
  next : Vertex := 0
  edgeCount : Int := 0
  inputs : List Vertex := []
  outputs : List Vertex := []
  /-- Whether new vertices get a phase number. -/
  trackPhases : Bool := false
  phaseIndex : Std.TreeMap Vertex Nat := ∅
  phaseMult : Std.TreeMap Nat Int := ∅
  maxPhaseIndex : Int := -1
  master : Option PhaseMaster := none

namespace Diagram

instance : Inhabited Diagram := ⟨{}⟩

def empty : Diagram := {}

variable (g : Diagram) (v : Vertex)

def vertices : List Vertex := g.adjacency.keys

def numVertices : Nat := g.adjacency.size

def has : Bool := g.adjacency.contains v

def adjacent : Attempt (Table Vertex EdgeKind) := orAbsent (g.adjacency.get? v)

/-- The neighbours of a vertex, none if it is absent. -/
def nearby : List Vertex :=
  match g.adjacency.get? v with
  | some t => t.keys
  | none => []

def neighbours : Attempt (List Vertex) := do
  return (← g.adjacent v).keys

def degree : Attempt Nat := do
  return (← g.adjacent v).length

def edge (s t : Vertex) : Edge :=
  if s < t then (s, t) else (t, s)

def incidentEdges : Attempt (List Edge) := do
  return (← g.neighbours v).map fun w => if v < w then (v, w) else (w, v)

def edges : List Edge := g.adjacency.toList.flatMap fun (v, adj) => (adj.keys.filter (v < ·)).map fun w => (v, w)

def edgeLe (a b : Edge) : Bool := a.1 < b.1 || (a.1 == b.1 && a.2 ≤ b.2)

def sortedEdges : List Edge := g.edges.mergeSort edgeLe

def connected (v w : Vertex) : Attempt Bool := do
  return (← g.adjacent v).has w

def edgeKind (e : Edge) : EdgeKind :=
  match g.adjacency.get? e.1 with
  | some adj => (adj.find? e.2).getD .absent
  | none => .absent

def kind : Attempt VertexKind := orAbsent (g.kinds.get? v)

def phase : Exact := (g.phases.get? v).getD (.ratio 1)

def phaseAt : Attempt Exact := orAbsent (g.phases.get? v)

def unset : Coord := .int (-1)

def qubit : Coord := (g.qubits.get? v).getD unset

def qubitAt : Attempt Coord := orAbsent (g.qubits.get? v)

def row : Coord := (g.rows.get? v).getD unset

def rowAt : Attempt Coord := orAbsent (g.rows.get? v)

def depth : Coord := (Coord.maximum g.rows.values).getD unset

def qubitCount : Coord := ((Coord.maximum g.qubits.values).getD unset).add (.int 1)

def isBoundaryVertex : Bool := g.inputs.contains v || g.outputs.contains v

def dataKeys : List String := ((g.data.get? v).getD []).keys

def datum (key : String) : Option Json := ((g.data.get? v).getD []).find? key

def verticesInRange (start stop : Int) : List Vertex :=
  let inside (v : Vertex) : Bool := start < v && (v : Int) < stop
  g.vertices.filter fun v => inside v && (g.nearby v).all inside

/-- The edges at vertices all of whose neighbours are between two numbers; with `safe` also their
    neighbours. -/
def edgesInRange (start stop : Int) (safe : Bool) : List Edge :=
  let inside (v : Vertex) : Bool := start < v && (v : Int) < stop
  g.edges.filter fun e =>
    let adj := g.nearby e.1
    inside e.1 && adj.all inside && (!safe || adj.all fun w => (g.nearby w).all inside)

def summary : String := s!"Graph({g.numVertices} vertices, {g.edgeCount} edges)"

def stats : String :=
  let degrees := g.vertices.map fun v => (g.nearby v).length
  let lines := (ascending degrees).map fun d => s!"{d}: {degrees.count d}\n"
  g.summary ++ "\ndegree distribution: \n" ++ String.join lines

def tCount : Nat :=
  g.vertices.countP fun v =>
    match g.phases.get? v with
    | some p => 2 < p.den
    | none => false

end Diagram

end ZXCircuits
