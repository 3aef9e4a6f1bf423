/-
  Cutting a diagram behind its frontier, and taking phase gadgets off it.

  The right side are the vertices beyond the frontier that it is joined to; `greedyCut` moves those next to it whose removal lowers
  the rank.  `takeGadget` finds a gadget whose connections are a sum of those of the frontier, sets it free and turns it into a parity
  phase.
-/
import ZXCircuits.Extract.Cut
import ZXCircuits.BitMatrix.Minimal
import ZXCircuits.Circuit.ToDiagram

namespace ZXCircuits.Extract

/-- Two sets of vertices beyond the frontier: the right side, and those of it that may be moved. -/
structure RightSide where
  diagram : Diagram
  right : List Vertex
  movable : List Vertex

def shieldOutputs (s : RightSide) : Attempt RightSide :=
  s.right.foldlM (fun s w => do
    if !s.diagram.outputs.contains w then return s
    let (g, v) ← s.diagram.shieldOutput w (s.diagram.qubit w) (s.diagram.row w)
    let swap (ws : List Vertex) : List Vertex :=
      if ws.contains w then ascending (v :: ws.filter (· != w)) else ws
    return { diagram := g, right := swap s.right, movable := swap s.movable }) s

def lonelyColumns (m : BitMatrix) : List Nat := m.toRows.filterMap fun r => if BitMatrix.total r = 1 then r.findIdx? (· != 0) else none

variable (g : Diagram)

def assignWires (left right : List Vertex) : Attempt Diagram := do
  let wires := left.map g.qubit
  let m ← g.connections right left
  (← m.assignColumns).foldlM (fun g (i, j) => do
    return g.setQubit (← orOutOfRange right[i]?) (← orOutOfRange wires[j]?)) g

def wireAt (wires : List Coord) (i : Nat) : Attempt Int := do
  Circuit.wireOf (← orOutOfRange wires[i]?)

def joinStraight (left right : List Vertex) : Attempt Diagram :=
  let places := List.range left.length
  places.foldlM (fun g i => places.foldlM (fun g j => do
    let v ← orOutOfRange left[i]?
    let w ← orOutOfRange right[j]?
    if ← g.connected v w then
      if i ≠ j then g.removeEdge (Diagram.edge v w) else return g
    else if i = j then g.addEdge (v, w) .hadamard
    else return g) g) g

/-- Moves vertices of the right side next to the frontier.  Gives the diagram, the gates taken off, and whether
    there were such vertices. -/
def greedyCut (left right movable : List Vertex) (verbose : Bool) : Run (Diagram × List Gate × Bool) := do
  let s ← shieldOutputs ⟨g, right, movable⟩
  let g := s.diagram
  let m ← g.connections s.right left
  let alone := (lonelyColumns (m.reduce true BitMatrix.standardWidth).matrix).filterMap fun i =>
    s.right[i]?
  let moved := alone.filter s.movable.contains
  if moved.isEmpty then return (g, [], false)
  let (g, new) ← g.cutEdges left (s.right.filter fun w => !moved.contains w) none
  let row := g.row (← orOutOfRange left.head?)
  let (g, split) ← moved.foldlM (fun (acc : Diagram × List Vertex) w => do
    let (g, v) ← (acc.1.setRow w (row.add (.int 2))).splitByRow w
    return (g, acc.2 ++ [v])) (g, ([] : List Vertex))
  let new := new ++ split
  let left := g.byQubit left
  let wires := left.map g.qubit
  let g ← assignWires g left new
  let new := g.byQubit new
  let m ← g.connections new left
  let nots ← m.synthesis true
  let gates ← nots.mapM fun (c, t) => do return Gate.cnot (← wireAt wires c) (← wireAt wires t)
  let g ← joinStraight g left new
  Run.sayIf verbose s!"Greedy extract with {moved.length} nodes and {gates.length} CNOTs\n"
  return (g, gates, true)

abbrev Leaves := Table Vertex Vertex

def shieldEach (g : Diagram) : List Vertex → Attempt (Diagram × List Vertex)
  | [] => .ok (g, [])
  | w :: rest => do
    if !g.outputs.contains w then
      let (g, ws) ← shieldEach g rest
      return (g, w :: ws)
    let (g, v) ← g.shieldOutput w (← g.qubitAt w) (← g.rowAt w)
    let (g, ws) ← shieldEach g rest
    return (g, v :: ws)

def freeGadgets (left right : List Vertex) (leaves : Leaves) : Attempt (List Vertex) := do
  let known := right ++ left ++ leaves.values
  (right.filter leaves.has).filterM fun n => do
    return (← g.neighbours n).all known.contains

def chooseGadget (left right options : List Vertex) : Attempt Vertex := do
  let m ← g.connections right (left ++ options)
  let (r, _) ← m.reduceBottomRows left.length
  orOutOfRange (left ++ options)[r]?

/-- A gadget set free: the diagram, the frontier and the row behind it, by wires, with the gates taken off. -/
structure Freed where
  diagram : Diagram
  left : List Vertex
  right : List Vertex
  gates : List Gate

def straighten (left right : List Vertex) (axle : Vertex) : Attempt Freed := do
  let left := g.byQubit left
  let wires ← left.mapM g.qubitAt
  let g ← assignWires g left right
  let right := g.byQubit right
  let m ← g.connections right left
  if m.rank ≠ left.length then throw .lowRank
  let steps := (m.reduce true BitMatrix.standardWidth).additions
  let gates ← steps.mapM fun (a, b) => do return Gate.cnot (← wireAt wires b) (← wireAt wires a)
  let m ← BitMatrix.applyRows steps (← g.connections (right ++ [axle]) left)
  let g ← g.connectBy m (right ++ [axle]) left .hadamard
  return ⟨g, left, right, gates⟩

def joinedTo (v : Vertex) (vs : List Vertex) : Attempt (List Vertex) := vs.filterM fun w => g.connected v w

/-- Connections of a gadget: to the frontier, and to the row behind it; the wires of the former. -/
structure Legs where
  diagram : Diagram
  wires : List Coord
  leftCount : Nat
  right : List Vertex
  gates : List Gate

def pullLegs (left : List Vertex) (row : Coord) (s : Legs) (w : Vertex) : Attempt Legs := do
  let g := s.diagram
  let v ← match ← left.findM? fun v => g.connected w v with
    | some v => pure v
    | none => throw .exhausted
  let g ← g.setEdgeKind (v, w) .regular
  let q ← g.qubitAt v
  let g := g.setQubit w q
  if q.isIn s.wires then
    return { s with diagram := g.setRow w (row.add (.int 1)), right := w :: s.right }
  return { diagram := g, wires := s.wires ++ [q], leftCount := s.leftCount + 1, right := s.right
           gates := s.gates ++ [.had (← Circuit.wireOf q)] }

def twoSided (phase : Rat) (targets right : List Int) : List Gate :=
  let phase := if right.length % 4 ≠ 0 then Rat.modTwo (-phase) else phase
  (right.flatMap fun t => [Gate.had t, .zPhase t (-1 / 2), .had t])
    ++ [.parity phase targets]
    ++ right.flatMap fun t => [Gate.had t, .zPhase t (1 / 2)]

def takeGadget (left right : List Vertex) (leaves : Leaves) (verbose : Bool) : Run (Diagram × List Gate × Coord) := do
  let row ← g.rowAt (← orOutOfRange left.head?)
  if !right.any leaves.has then throw .noGadget
  let options ← freeGadgets g left right leaves
  let right := right.filter (fun w => !options.contains w) ++ options
  let axle ← chooseGadget g left right options
  let leaf ← orAbsent (leaves.find? axle)
  let right := right.filter (· != axle)
  let next := row.add (.int 1)
  let g := (g.setRow axle next).setRow leaf next
  let (g, right) ← shieldEach g right
  let (g, right) ← if right.length = left.length then do
      Run.sayIf verbose "No cutting necessary\n"
      pure (right.foldl (fun g w => g.setRow w (row.add (.int 2))) g, right)
    else liftM (g.cutEdges (left ++ [axle]) right none)
  let phase := (g.phase leaf).toRat
  let phase := if (g.phase axle).isZero then phase else -phase
  let f ← straighten g left right axle
  let onLeft ← joinedTo f.diagram axle f.left
  let onRight ← joinedTo f.diagram axle f.right
  let wires ← onLeft.mapM fun v => liftM (f.diagram.qubitAt v)
  let legs ← pullAll f.left row onRight.reverse ⟨f.diagram, wires, onLeft.length, [], f.gates⟩
  let targets ← legs.wires.mapM fun q => liftM (Circuit.wireOf q)
  if legs.right.isEmpty then
    Run.sayIf verbose "Simple phase gadget\n"
    let g ← legs.diagram.removeVertices [leaf, axle]
    return (g, legs.gates ++ [.parity phase targets], row)
  Run.sayIf verbose "Complicated phase gadget\n"
  if legs.right.length % 2 ≠ 0 ∨ legs.leftCount = 1 then throw .nonUnitaryGadget
  let far ← legs.right.mapM fun w => liftM (legs.diagram.qubitAt w)
  let farWires ← far.mapM fun q => liftM (Circuit.wireOf q)
  let g ← moveUp f.left next far legs.diagram
  let g ← g.removeVertices [leaf, axle]
  return (g, legs.gates ++ twoSided phase targets farWires, next)
where
  /-- Brings over all connections to the row behind, one after another. -/
  pullAll (left : List Vertex) (row : Coord) (ws : List Vertex) (s : Legs) : Attempt Legs :=
    ws.foldlM (pullLegs left row) s
  /-- Moves the vertices of the frontier on other wires up to the next row. -/
  moveUp (left : List Vertex) (next : Coord) (wires : List Coord) (g : Diagram) :
      Attempt Diagram :=
    left.foldlM (fun g v => do
      return if (← g.qubitAt v).isIn wires then g else g.setRow v next) g

/-! ## Ancillas -/

def choose {α : Type} : Nat → List α → List (List α)
  | 0, _ => [[]]
  | _ + 1, [] => []
  | k + 1, x :: xs => (choose k xs).map (x :: ·) ++ choose (k + 1) xs

/-- The smallest sets of vertices that rows of a reduced matrix without a bit outside the last `loose` columns stand for. -/
def smallestSets (m : BitMatrix) (right : List Vertex) (loose : Nat) : List (List Vertex) :=
  let fits (r : List Int) : Bool := loose = 0 || (r.take (r.length - loose)).all (· == 0)
  let sets := (m.toRows.filter fits).map fun r => ((right.zip r).filter (·.2 != 0)).map (·.1)
  match (sets.map List.length).min? with
  | some n => sets.filter (·.length = n)
  | none => []

/-- The vertices that become ancillas: all but one of the only set, or those that are common to the fewest
    sets. -/
def ancillasOf : List (List Vertex) → Attempt (List Vertex)
  | [] => .error .noAncillas
  | [s] => .ok s.dropLast
  | s :: sets =>
    if s.length = 0 then .error .badValue
    else
      let all := s :: sets
      let common (c : List Vertex) : Nat := all.countP fun t => c.all t.contains
      match choose (s.length - 1) (ascending all.flatten) with
      | [] => .error .misapplied
      | c :: cs => .ok (cs.foldl (fun best c => if common c < common best then c else best) c)

/-- Turns vertices beyond the frontier into the starts of new wires. -/
def addAncillas (left right : List Vertex) (gadgets : List Vertex) (next : Coord)
    (verbose : Bool) : Run (Diagram × List Gate × Coord) := do
  let row := g.row (← orOutOfRange left.head?)
  let nodes := right.filter fun w => !gadgets.contains w
  let right := right.filter gadgets.contains ++ nodes
  let m ← g.connections right left
  let sets := smallestSets (m.reduce true BitMatrix.standardWidth).matrix right nodes.length
  if sets.isEmpty then throw .noAncillas
  Run.sayIf verbose s!"Adding {((sets.headD []).length : Int) - 1} ancillas\n"
  let ancillas ← ancillasOf sets
  let (g, gates) ← (ancillas.zip (List.range ancillas.length)).foldlM
    (fun (acc : Diagram × List Gate) (v, (i : Nat)) => do
      let q := next.add (.int i)
      let g := (acc.1.setRow v row).setQubit v q
      let (g, w) := g.addVertex .z q (row.sub (.int 1)) (.int 0)
      let g ← g.addEdge (v, w) .regular
      return (g, acc.2 ++ [.initAncilla (← Circuit.wireOf q)])) (g, [])
  return (g, gates, next.add (.int ancillas.length))

end ZXCircuits.Extract
