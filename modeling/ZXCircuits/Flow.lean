/-
  Generalised flow.

  From the outputs on, vertices are corrected layer by layer by sets of vertices of earlier layers, which a linear system gives.
-/
import ZXCircuits.Extract.Cut

namespace ZXCircuits

/-- Layers of vertices, the correcting set of each vertex, and the number of layers. -/
structure Flow where
  layers : Table Vertex Nat
  corrections : Table Vertex (List Vertex)
  depth : Nat

namespace Flow

def correctors (g : Diagram) (done : List Vertex) : Attempt (List Vertex) :=
  (done.filter fun v => !g.inputs.contains v).filterM fun v => do
    return (← g.neighbours v).any fun w => !done.contains w

def candidates (g : Diagram) (done by_ : List Vertex) : List Vertex :=
  g.vertices.filter fun v => !done.contains v && (g.nearby v).any by_.contains

def correction (m : BitMatrix) (by_ : List Vertex) (count i : Nat) : Attempt (Option (List Vertex)) := do
  let unit := BitMatrix.ofRows ((List.range count).map fun k => [if k = i then 1 else 0])
  match ← m.solve unit with
  | none => return none
  | some x =>
    let rows := (List.range x.rows.numRows).filter fun k => x.rows.bit k 0
    return some (← rows.mapM fun k => orOutOfRange by_[k]?)

def layersFrom (g : Diagram) : Nat → Flow → List Vertex → Attempt (Option Flow)
  | 0, _, _ => .error .stepLimit
  | fuel + 1, f, done => do
    let by_ ← correctors g done
    let us := candidates g done by_
    let m ← g.connections by_ us
    let found ← (us.zip (List.range us.length)).filterMapM fun (u, i) => do
      return (← correction m by_ us.length i).map fun set => (u, set)
    if found.isEmpty then return if us.isEmpty then some f else none
    let f := found.foldl (fun f (u, set) =>
      { f with layers := Table.insert f.layers u f.depth
               corrections := Table.insert f.corrections u set }) f
    layersFrom g fuel { f with depth := f.depth + 1 } (ascending (done ++ found.map (·.1)))

end Flow

def Diagram.flow (g : Diagram) : Attempt (Option Flow) :=
  Flow.layersFrom g (g.numVertices + 1)
    { layers := g.outputs.foldl (fun t v => Table.insert t v 0) [], corrections := [], depth := 1 }
    (ascending g.outputs)

end ZXCircuits
