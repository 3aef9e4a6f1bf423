/-
  Listings of diagrams.
-/
import ZXCircuits.Listing.Basic
import ZXCircuits.Diagram.Edit

namespace ZXCircuits.Listing

variable (g : Diagram) (j : Json)

def vertexListing (v : Vertex) : Json :=
  .arr [listing v, .int ((g.kinds.get? v).getD .boundary).code, .str (g.phase v).text, listing (g.qubit v), listing (g.row v)]

instance : Listed Diagram := ⟨fun g =>
  let es := g.sortedEdges.map fun e => Json.arr [listing e.1, listing e.2, .int (g.edgeKind e).code]
  let tracked := if g.trackPhases then
      [("pindex", listing g.phaseIndex), ("pmult", listing g.phaseMult)]
    else []
  .obj ([("v", .arr (g.vertices.map (vertexListing g))), ("e", .arr es), ("in", listing g.inputs),
    ("out", listing g.outputs), ("ne", listing g.edgeCount)] ++ tracked)⟩

def membersOf (key : String) : Attempt (List Json) :=
  match j.get? key with
  | some xs => items xs
  | none => .ok []

def addListedVertex : Attempt Diagram := do
  match ← items j with
  | k :: q :: r :: rest =>
    let p ← match rest with
      | p :: _ => read p
      | [] => pure (Exact.int 0)
    return (g.addVertex (.ofCode (← read k)) (← read q) (← read r) p).1
  | _ => throw .misapplied

def addListedEdge : Attempt Diagram := do
  match ← items j with
  | s :: t :: rest =>
    let k ← match rest with
      | k :: _ => read k
      | [] => pure 1
    g.addEdge (← read s, ← read t) (.ofCode k)
  | _ => throw .misapplied

instance : Readable Diagram := ⟨fun j => do
  let g ← (← membersOf j "v").foldlM addListedVertex {}
  let g ← (← membersOf j "e").foldlM addListedEdge g
  let g := { g with
    inputs := ← (← membersOf j "inputs").mapM read
    outputs := ← (← membersOf j "outputs").mapM read }
  g.removeVertices (← (← membersOf j "remove").mapM read)⟩

end ZXCircuits.Listing
