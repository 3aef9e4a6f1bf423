/-
  Local complementation, and pivoting along a Hadamard edge.

  A vertex with a quarter turn goes: the Hadamard edges between its neighbours are complemented and its phase is taken from theirs.
  In a pivot both ends of the edge go, and the Hadamard edges between the neighbours of the first only, of the second only and of both
  are complemented.  An end may have a neighbour on the boundary, or a new one that takes on its phase; that connection goes to the
  other end, which stays.
-/
import ZXCircuits.Rule.Basic

namespace ZXCircuits.LocalComplement

structure Place where
  vertex : Vertex
  neighbours : List Vertex
  deriving DecidableEq, Repr

variable (g : Diagram)

def placeAt (onlyHadamard : Bool) (v : Vertex) : Option Place :=
  let ns := g.nearby v
  let a := (g.phase v).toRat
  if (a == 1 / 2 || a == 3 / 2)
      && (!onlyHadamard || ns.all fun n => g.edgeKind (Diagram.edge v n) == .hadamard)
      && ns.all fun n => g.kindD n == g.kindD v then
    some ⟨v, ns⟩
  else none

def find (accept : Vertex → Bool) (limit : Limit) (onlyHadamard : Bool) : List Place :=
  let look (_ : Unit) (v : Vertex) : Id (Option (Sighting Unit Vertex Place)) :=
    (placeAt g onlyHadamard v).map fun p => ⟨(), p, p.neighbours⟩
  if limit = some 0 then []
  else (scan look (g.vertexCandidates accept) none () ∅ [] : Id _).2

def pairs : List Vertex → List Edge
  | [] => []
  | v :: rest => rest.map (Diagram.edge v) ++ pairs rest

def addHadamard (t : EdgeTable) (e : Edge) : EdgeTable := t.insert e (0, ((t.find? e).getD (0, 0)).2 + 1)

def table (sets : List (List Vertex)) : EdgeTable := sets.foldl (fun t ns => (pairs ns).foldl addHadamard t) []

def spread (p : Place) : Diagram :=
  let a := (g.phase p.vertex).neg
  p.neighbours.foldl (fun g n => g.addToPhase n a) g

def effect (places : List Place) : Diagram × Effect :=
  (places.foldl spread g,
   { table := table (places.map (·.neighbours))
     vertices := places.map (·.vertex)
     sweep := false })

end ZXCircuits.LocalComplement

namespace ZXCircuits.Pivot

/-- The ends of the edge with the neighbours that are kept apart. -/
structure Place where
  first : Vertex
  second : Vertex
  firstBoundary : List Vertex
  secondBoundary : List Vertex
  deriving DecidableEq, Repr

/-! ## Vertices without a phase of their own -/

variable (g : Diagram) (v : Vertex) (accept : Edge → Bool)

/-- The neighbours on the boundary, if all others are joined by Hadamard edges to vertices of the first
    colour. -/
def boundaryOf : Option (List Vertex) :=
  let ns := g.nearby v
  let fine (n : Vertex) : Bool :=
    g.kindD n == .boundary || (g.kindD n == .z && g.edgeKind (Diagram.edge v n) == .hadamard)
  if ns.all fine then some (ns.filter fun n => g.kindD n == .boundary) else none

def placeAt (e : Edge) : Option Place :=
  let (v, w) := e
  if g.kindD v == .z && g.kindD w == .z && g.isPauli v && g.isPauli w then
    match boundaryOf g v, boundaryOf g w with
    | some bv, some bw => if bv.length + bw.length ≤ 1 then some ⟨v, w, bv, bw⟩ else none
    | _, _ => none
  else none

def find (limit : Limit) (anyEdge : Bool) : List Place :=
  let look (_ : Unit) (e : Edge) : Id (Option (Sighting Unit Edge Place)) :=
    if !anyEdge && g.edgeKind e != .hadamard then none
    else (placeAt g e).map fun p =>
      ⟨(), p, g.edgesAt (g.nearby p.first) ++ g.edgesAt (g.nearby p.second)⟩
  (scan look (g.edgeCandidates accept) limit () ∅ [] : Id _).2

/-! ## Moving a phase out of the way -/

/-- A diagram with edges that are to be added at the end. -/
structure Pending where
  diagram : Diagram
  edges : List Edge := []

def pauliFirst (e : Edge) : Option (Vertex × Vertex) :=
  match g.isPauli e.1, g.isPauli e.2 with
  | true, false => some (e.1, e.2)
  | false, true => some (e.2, e.1)
  | _, _ => none

def isInterior : Bool :=
  let ns := g.nearby v
  ns.length != 1 && ns.all fun n => g.kindD n == .z && (g.nearby n).length != 1

/-- The place at an edge between a vertex without a phase of its own and one with another phase; the phase
    is moved to a new vertex. -/
def gadgetAt (s : Pending) (e : Edge) : Attempt (Option (Sighting Pending Edge Place)) := do
  let g := s.diagram
  if g.kindD e.1 != .z || g.kindD e.2 != .z then return none
  match pauliFirst g e with
  | none => return none
  | some (v, w) =>
    if !isInterior g v || !isInterior g w then return none
    let touched := g.edgesAt (g.nearby v) ++ g.edgesAt (g.nearby w)
    let (g, leaf) := g.addVertex .z (.int (-2)) (← g.rowAt v) (g.phase w)
    let g := (g.setPhase w (.int 0)).setQubit v Diagram.unset
    let g ← g.swapPhaseIndex w leaf
    return some
      { state := { diagram := g, edges := Diagram.edge leaf w :: s.edges }
        place := ⟨v, w, [], [leaf]⟩
        touched := touched }

def findGadget (limit : Limit) : Attempt (Diagram × List Place) := do
  let (s, places) ← scan gadgetAt (g.edgeCandidates accept) limit { diagram := g } ∅ []
  return (← s.diagram.addEdges s.edges.reverse .regular, places)

/-- A diagram with edges that are to be added at the end, and vertices that have been used. -/
structure Consuming where
  diagram : Diagram
  edges : List Edge := []
  consumed : Std.TreeSet Vertex := ∅

/-- The partner of a vertex next to the boundary and the boundary vertex there. -/
structure Partner where
  vertex : Vertex
  bound : Vertex

/-- Goes through the neighbours of a vertex for a partner next to the boundary.  There is none if one is on the boundary, has no
    other neighbour or has been used.  A quarter turn is preferred; vertex zero is taken until another one comes. -/
def partnerOf (s : Consuming) : List Vertex → Option Partner → Option Partner
  | [], best => best.filter (·.vertex != 0)
  | n :: rest, best =>
    let g := s.diagram
    let ns := g.nearby n
    if g.kindD n == .boundary || ns.length == 1 || s.consumed.contains n then none
    else
      match ns.filter fun b => g.kindD b == .boundary with
      | [b] =>
        let taken := (best.filter (·.vertex != 0)).isSome
        if (g.phase n).den == 2 || !taken then partnerOf s rest (some ⟨n, b⟩)
        else partnerOf s rest best
      | _ => partnerOf s rest best

/-- The place at a vertex without a phase of its own, next to one at the boundary; the phase there is moved
    to a new vertex. -/
def boundaryAt (s : Consuming) (v : Vertex) : Attempt (Option (Sighting Consuming Vertex Place)) := do
  let g := s.diagram
  if g.kindD v != .z || !g.isPauli v then return none
  match partnerOf s (g.nearby v) none with
  | none => return none
  | some ⟨w, bound⟩ =>
    let shift : Coord := if g.inputs.contains bound then Coord.half
      else .real { value := -1 / 2 }
    let row := (← g.rowAt w).add shift
    let (g, leaf) := g.addVertex .z (.int (-2)) row (g.phase w)
    let (g, axle) := g.addVertex .z Diagram.unset row (.int 0)
    let g ← (g.setPhase w (.int 0)).swapPhaseIndex w leaf
    let touched := g.nearby v ++ g.nearby w
    return some
      { state :=
          { diagram := g
            edges := Diagram.edge leaf axle :: Diagram.edge w axle :: s.edges
            consumed := s.consumed.insertMany touched }
        place := ⟨v, w, [], [bound]⟩
        touched := touched }

def findBoundary (accept : Vertex → Bool) (limit : Limit) : Attempt (Diagram × List Place) := do
  let (s, places) ← scan boundaryAt (g.vertexCandidates accept) limit { diagram := g } ∅ []
  return (← s.diagram.addEdges s.edges.reverse .hadamard, places)

/-! ## The effect -/

def without (vs : List Vertex) : Attempt (List Vertex) :=
  if vs.contains v then .ok (vs.filter (· != v)) else .error .absent

def sideOf (v other : Vertex) (boundary : List Vertex) : Attempt (List Vertex) := do
  let ns ← without other (ascending (← g.neighbours v))
  match boundary with
  | [b] => without b ns
  | _ => return ns

def allEdges (vs ws : List Vertex) : List Edge := vs.flatMap fun v => ws.map fun w => Diagram.edge v w

def addPhases (vs : List Vertex) (p : Exact) : Diagram := vs.foldl (fun g v => g.addToPhase v p) g

structure Collected where
  diagram : Diagram
  table : EdgeTable := []
  vertices : List Vertex := []
  edges : List Edge := []

/-- Copies the phase of one end to the neighbours of the other, and takes the other end away or joins it to
    the boundary vertex. -/
def settleEnd (c : Collected) (v other : Vertex) (boundary far both : List Vertex) : Collected :=
  let g := c.diagram
  let a := g.phase v
  let g := addPhases (addPhases g far a) both a
  match boundary with
  | [] => { c with diagram := g, vertices := c.vertices ++ [other] }
  | b :: _ =>
    let e := Diagram.edge v b
    let new := Diagram.edge other b
    let (n₁, n₂) := (c.table.find? new).getD (0, 0)
    let counts := match g.edgeKind e with
      | .regular => (n₁, n₂ + 1)
      | .hadamard => (n₁ + 1, n₂)
      | _ => (n₁, n₂)
    { c with diagram := g, table := c.table.insert new counts, edges := c.edges ++ [e] }

def addHadamard (t : EdgeTable) (e : Edge) : EdgeTable := t.insert e (0, ((t.find? e).getD (0, 0)).2 + 1)

def settle (c : Collected) (p : Place) : Attempt Collected := do
  let g ← c.diagram.swapPhaseIndex p.first p.second
  let n₀ ← sideOf g p.first p.second p.firstBoundary
  let n₁ ← sideOf g p.second p.first p.secondBoundary
  let both := n₀.filter n₁.contains
  let n₀ := n₀.filter fun v => !both.contains v
  let n₁ := n₁.filter fun v => !both.contains v
  let es := allEdges n₀ n₁ ++ allEdges n₁ both ++ allEdges n₀ both
  let c := { c with diagram := addPhases g both (.int 1) }
  let c := settleEnd c p.first p.second p.firstBoundary n₁ both
  let c := settleEnd c p.second p.first p.secondBoundary n₀ both
  return { c with table := es.foldl addHadamard c.table }

def effect (places : List Place) : Attempt (Diagram × Effect) := do
  let c ← places.foldlM settle { diagram := g }
  return (c.diagram, { table := c.table, vertices := c.vertices, edges := c.edges, sweep := true })

end ZXCircuits.Pivot
