/-
  Fusing spiders, removing identities, and the bialgebra rule.

  Two vertices of one colour joined by a regular edge become one, with the sum of the phases.  A vertex without a phase and with two
  neighbours goes, and an edge joins the neighbours.  Two joined vertices of different colours are replaced by edges from every other
  neighbour of the one to every other neighbour of the other.
-/
import ZXCircuits.Rule.Basic

namespace ZXCircuits.Fusion

/-- The vertex that stays and the one that goes. -/
structure Place where
  keep : Vertex
  remove : Vertex
  deriving DecidableEq, Repr

variable (g : Diagram) (t : EdgeTable) (v : Vertex)

def findFirst : List Place :=
  match g.edges.find? fun e => g.edgeKind e == .regular && g.kindD e.1 == g.kindD e.2 with
  | some e => [⟨e.1, e.2⟩]
  | none => []

def find (accept : Edge → Bool) (limit : Limit) : List Place :=
  let look (_ : Unit) (e : Edge) : Id (Option (Sighting Unit Edge Place)) :=
    let k := g.kindD e.1
    if g.edgeKind e == .regular && k == g.kindD e.2 && k != .boundary then
      some ⟨(), ⟨e.1, e.2⟩, g.edgesAt (g.nearby e.1) ++ g.edgesAt (g.nearby e.2)⟩
    else none
  (scan look (g.edgeCandidates accept) limit () ∅ [] : Id _).2

def countEdge (e : Edge) (k : EdgeKind) : Attempt EdgeTable :=
  match k.code with
  | 1 | -1 => .ok (t.add e 1 0)
  | 2 | 0 => .ok (t.add e 0 1)
  | _ => .error .outOfRange

def noteFused (p : Place) : Attempt Diagram :=
  if g.trackPhases then g.fusePhases p.keep p.remove else .ok g

def moveEdges (p : Place) : Attempt EdgeTable := do
  (← g.neighbours p.remove).foldlM (fun t w =>
    if w = p.keep then pure t
    else countEdge t (p.keep, w) (g.edgeKind (p.remove, w))) t

def fuse (acc : Diagram × EdgeTable) (p : Place) : Attempt (Diagram × EdgeTable) := do
  let (g, t) := acc
  let g ← noteFused (g.setPhase p.keep ((g.phase p.keep).add (g.phase p.remove))) p
  return (g, ← moveEdges g t p)

def effect (places : List Place) : Attempt (Diagram × Effect) := do
  let (g, t) ← places.foldlM fuse (g, [])
  return (g, { table := t, vertices := places.map (·.remove), sweep := true })

/-- Splits a vertex: the new one gets the phase and some of the neighbours.  A position of minus one stands
    for the position of the old vertex. -/
def unfuse (neighbours : List Vertex) (q r : Coord) : Attempt (Diagram × Vertex) := do
  let (g, w) := g.addVertex (← g.kind v) Diagram.unset Diagram.unset (.int 0)
  let g := g.setQubit w (if q.same Diagram.unset then g.qubit v else q)
  let g := g.setRow w (if r.same Diagram.unset then g.row v else r)
  let g ← g.addEdge (v, w) .regular
  let g ← neighbours.foldlM (fun g n => do
    let e := Diagram.edge v n
    let g ← g.addEdge (w, n) (g.edgeKind e)
    g.removeEdge e) g
  let g := g.setPhase w (g.phase v)
  return (g.setPhase v (.int 0), w)

/-- Splits a vertex as a match says: the vertex and the neighbours.  A match that also has a phase is not taken. -/
def unfuseMatch (neighbours : List Vertex) (hasPhase : Bool) (q r : Coord) : Attempt (Diagram × Vertex) := do
  let result ← unfuse g v neighbours q r
  if hasPhase then throw .unsupported
  return result

end ZXCircuits.Fusion

namespace ZXCircuits.Identity

/-- A vertex with its two neighbours and the kind of the edge between them. -/
structure Place where
  vertex : Vertex
  first : Vertex
  second : Vertex
  kind : EdgeKind
  deriving DecidableEq, Repr

def placeAt (g : Diagram) (v : Vertex) : Option Place :=
  if !(g.phase v).isZero then none
  else
    match g.nearby v with
    | [a, b] =>
      let same := g.edgeKind (v, a) == g.edgeKind (v, b)
      some ⟨v, a, b, if same then .regular else .hadamard⟩
    | _ => none

def find (g : Diagram) (accept : Vertex → Bool) (limit : Limit) : List Place :=
  let look (_ : Unit) (v : Vertex) : Id (Option (Sighting Unit Vertex Place)) :=
    (placeAt g v).map fun p => ⟨(), p, [p.first, p.second]⟩
  (scan look (g.vertexCandidates accept) limit () ∅ [] : Id _).2

def effect (places : List Place) : Attempt Effect := do
  let t ← places.foldlM (fun t p => Fusion.countEdge t (p.first, p.second) p.kind) []
  return { table := t, vertices := places.map (·.vertex), sweep := false }

end ZXCircuits.Identity

namespace ZXCircuits.Bialgebra

structure Place where
  first : Vertex
  second : Vertex
  firstNeighbours : List Vertex
  secondNeighbours : List Vertex
  deriving DecidableEq, Repr

variable (g : Diagram)

def placeAt (e : Edge) : Option Place :=
  let (v, w) := e
  let kv := g.kindD v
  let kw := g.kindD w
  if (kv == .z && kw == .x) || (kv == .x && kw == .z) then
    let nv := (g.nearby v).filter (· != w)
    let nw := (g.nearby w).filter (· != v)
    if nv.all (fun n => g.kindD n == kw) && nw.all (fun n => g.kindD n == kv) then
      some ⟨v, w, nv, nw⟩
    else none
  else none

def findFirst : List Place :=
  match g.edges.findSome? (placeAt g) with
  | some p => [p]
  | none => []

def find (accept : Edge → Bool) (limit : Limit) : List Place :=
  let look (_ : Unit) (e : Edge) : Id (Option (Sighting Unit Edge Place)) :=
    (placeAt g e).map fun p =>
      ⟨(), p, g.edgesAt p.firstNeighbours ++ g.edgesAt p.secondNeighbours⟩
  (scan look (g.edgeCandidates accept) limit () ∅ [] : Id _).2

def effect (places : List Place) : Effect :=
  { table := places.foldl (fun t p =>
      p.firstNeighbours.foldl (fun t i =>
        p.secondNeighbours.foldl (fun t j => EdgeTable.add t (Diagram.edge i j) 1 0) t) t) []
    vertices := places.flatMap fun p => [p.first, p.second]
    sweep := true }

end ZXCircuits.Bialgebra
