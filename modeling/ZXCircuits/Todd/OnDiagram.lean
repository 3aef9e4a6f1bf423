/-
  Third-order duplicate and destroy on the phase gadgets of a diagram.

  The gadgets with an odd number of eighths and the eighths on their targets are a parity matrix; the reduced matrix is put back as
  gadgets, phases and Hadamard edges.
-/
import ZXCircuits.Todd.Gates
import ZXCircuits.Diagram.Tracking

namespace ZXCircuits.Todd

abbrev Gadgets := Table (List Vertex) (Vertex × Vertex)

def isEighth (p : Exact) : Bool := !p.isZero && p.den == 4

variable (g : Diagram) (gadgets : Gadgets) (odd : List Vertex)

def findGadgets : Attempt Gadgets :=
  g.vertices.foldlM (fun t v => do
    match ← g.neighbours v with
    | [axle] =>
      let p := g.phase v
      if g.isBoundaryVertex v || !(p.isZero || p.den == 4) then return t
      let targets := ascending ((← g.neighbours axle).filter (· != v))
      return Table.insert t targets (axle, v)
    | _ => return t) []

def eighths : List Vertex := g.vertices.filter fun v => isEighth (g.phase v)

def withTargets (targets odd : List Vertex) : Gadgets :=
  (targets.filter odd.contains).foldl (fun t v => Table.insert t [v] (v, v)) gadgets

def gadgetMatrix (targets : List Vertex) : BitMatrix :=
  (BitMatrix.ofRows (gadgets.flatMap fun (par, _, leaf) =>
    List.replicate (g.phase leaf).num.toNat
      (targets.map fun t => if par.contains t then 1 else 0))).transpose

def addPhase (t : Table Vertex Exact) (v : Vertex) (p : Rat) : Table Vertex Exact :=
  match Table.find? t v with
  | some old => Table.insert t v (old.add (.ratio p))
  | none => Table.insert t v (if odd.contains v then .ratio p else (g.phase v).add (.ratio p))

def setEighth (t : Table Vertex Exact) (v : Vertex) : Table Vertex Exact :=
  Table.insert t v (if odd.contains v then .ratio (1 / 4) else (g.phase v).add (.ratio (1 / 4)))

def applyCliffords (odd targets : List Vertex) (gates : List Gate)
    (phases : Table Vertex Exact) : Attempt (Table Vertex Exact × EdgeTable) :=
  gates.foldlM (fun (phases, table) c => do
    match c.op with
    | .rotation _ t p =>
      let v ← orOutOfRange targets[t.toNat]?
      return (addPhase g odd phases v p, table)
    | .pair .cz a b =>
      let v ← orOutOfRange targets[a.toNat]?
      let w ← orOutOfRange targets[b.toNat]?
      return (phases, Table.insert table (v, w) (0, 1))
    | _ => throw Failure.unknownCorrection) (phases, ([] : EdgeTable))

/-- Takes away the gadgets that are not wanted, and gives the rows of those kept and the gadgets still to be made. -/
def keepGadgets : Gadgets → Diagram → List Coord → List (List Vertex) → Attempt (Diagram × List Coord × List (List Vertex))
  | [], g, positions, wanted => .ok (g, positions, wanted)
  | (par, axle, leaf) :: rest, g, positions, wanted => do
    if par.length = 1 then keepGadgets rest g positions wanted
    else if wanted.contains par then
      let r ← g.rowAt leaf
      keepGadgets rest (g.setPhase leaf (.ratio (1 / 4))) (r :: positions) (wanted.erase par)
    else
      keepGadgets rest (← g.removeVertices [axle, leaf]) positions wanted

def freePosition (taken : List Coord) : Nat → Coord → Coord
  | 0, p => p
  | fuel + 1, p => if p.isIn taken then freePosition taken fuel (p.add .half) else p

def makeGadgets : List (List Vertex) → Diagram → List Coord → Attempt (Diagram × List Edge)
  | [], g, _ => .ok (g, [])
  | par :: rest, g, positions => do
    let rows ← par.mapM g.rowAt
    let sum := rows.foldl Coord.add (.int 0)
    let pos := freePosition positions (positions.length + 1) ((sum.divNat par.length).add .half)
    let (g, axle) := g.addVertex .z (.int (-1)) pos (.int 0)
    let (g, leaf) := g.addVertex .z (.int (-2)) pos (.ratio (1 / 4))
    let (g, edges) ← makeGadgets rest g (pos :: positions)
    return (g, (axle, leaf) :: par.map (fun t => (axle, t)) ++ edges)

def reduceDiagram {σ : Type} [Random.Source σ] (g : Diagram) : RandomRun σ Diagram := do
  let gadgets ← RandomRun.ofExcept (findGadgets g)
  if gadgets.isEmpty then
    RandomRun.sayIf true "No phase gadgets found\n"
    return g
  let odd := eighths g
  let targets := ascending (Table.keys gadgets).flatten
  let gadgets := withTargets gadgets targets odd
  let m := gadgetMatrix g gadgets targets
  let m' ← iterate m false
  RandomRun.ofExcept do
    let cols := m'.transpose.toRows
    let phases ← (cols.filter fun c => BitMatrix.total c == 1).foldlM (fun t c => do
      let v ← orOutOfRange targets[← firstSet c]?
      return setEighth g odd t v) []
    let wanted := (cols.filter fun c => BitMatrix.total c != 1).map fun c =>
      ((targets.zip c).filter (·.2 != 0)).map (·.1)
    let rest := (({} : Multilinear).addMatrix m false).addMatrix m' true
    let (phases, table) ← applyCliffords g odd targets (← rest.toClifford) phases
    let g := targets.foldl (fun g v =>
      match Table.find? phases v with
      | some p => g.setPhase v p
      | none => if odd.contains v then g.setPhase v (.int 0) else g) g
    let g ← g.addEdgeTable table
    let (g, positions, wanted) ← keepGadgets gadgets g [] wanted
    let (g, edges) ← makeGadgets wanted g positions
    g.addEdges edges .hadamard

end ZXCircuits.Todd
