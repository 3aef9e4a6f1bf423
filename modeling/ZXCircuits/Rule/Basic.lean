/-
  Places where a rule applies, and what it does there.

  A matcher goes through the candidates in ascending order; what a place touches is no candidate any more.  The effect of a rule is an
  edge table with vertices and edges to be taken away.
-/
import ZXCircuits.Diagram.Tracking
import Std.Data.TreeSet

namespace ZXCircuits

structure Effect where
  table : EdgeTable := []
  vertices : List Vertex := []
  edges : List Edge := []
  /-- Whether vertices without neighbours are taken away at the end. -/
  sweep : Bool

def Diagram.applyEffect (g : Diagram) (e : Effect) : Attempt Diagram := do
  let g ← g.addEdgeTable e.table
  let g ← g.removeEdges e.edges
  let g ← g.removeVertices e.vertices
  if e.sweep then g.removeIsolated else return g

abbrev Limit := Option Nat

/-- What a look at a candidate gives: the place found, the candidates it touches, and the state after it. -/
structure Sighting (σ α μ : Type) where
  state : σ
  place : μ
  touched : List α

instance : Ord Edge := lexOrd

def scan {m : Type → Type} [Monad m] {σ α μ : Type} [Ord α] (look : σ → α → m (Option (Sighting σ α μ))) :
    List α → Limit → σ → Std.TreeSet α → List μ → m (σ × List μ)
  | [], _, s, _, found => pure (s, found.reverse)
  | a :: rest, limit, s, gone, found => do
    if limit = some 0 then return (s, found.reverse)
    if gone.contains a then scan look rest limit s gone found
    else
      match ← look s a with
      | none => scan look rest limit s gone found
      | some w =>
        scan look rest (limit.map (· - 1)) w.state (gone.insertMany w.touched) (w.place :: found)

namespace Diagram

variable (g : Diagram) (v : Vertex)

def kindD : VertexKind := (g.kinds.get? v).getD .boundary

def incidentEdgesD : List Edge := (g.nearby v).map fun w => if v < w then (v, w) else (w, v)

def edgesAt (vs : List Vertex) : List Edge := vs.flatMap g.incidentEdgesD

def edgeCandidates (accept : Edge → Bool) : List Edge := (g.edges.filter accept).mergeSort edgeLe

def vertexCandidates (accept : Vertex → Bool) : List Vertex := g.vertices.filter accept

def isPauli : Bool :=
  let q := (g.phase v).toRat
  q == 0 || q == 1

end Diagram

end ZXCircuits
