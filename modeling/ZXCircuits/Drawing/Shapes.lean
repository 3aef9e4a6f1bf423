/-
  Labels, colours and shapes of diagrams on a figure.
-/
import ZXCircuits.Diagram.Basic

namespace ZXCircuits

def Exact.label (p : Exact) : String :=
  if p.isZero then ""
  else
    (if p.num = 1 then "" else toString p.num) ++ "π"
      ++ (if p.den = 1 then "" else "/" ++ toString p.den)

def VertexKind.colourName : VertexKind → String
  | z => "green"
  | x => "red"
  | _ => "black"

def EdgeKind.colourName : EdgeKind → String
  | regular => "magenta"
  | _ => "black"

end ZXCircuits

namespace ZXCircuits.Figure

structure Point where
  x : Float
  y : Float

inductive Patch where
  | circle (centre : Point) (radius : Float) (colour : String)
  /-- A box by its corner, with its angle in degrees. -/
  | rectangle (corner : Point) (width height angle : Float)
  /-- A curve from the first to the last point. -/
  | curve (start middle stop : Point) (colour : String)

structure Line where
  start : Point
  stop : Point
  colour : String

structure Label where
  place : Point
  text : String
  colour : String
  size : Nat

structure Shapes where
  patches : List Patch := []
  lines : List Line := []
  texts : List Label := []

inductive HadamardMark where
  | blue
  | box
  | none
  deriving DecidableEq, Repr

structure Options where
  labels : Bool := false
  mark : HadamardMark := .blue
  /-- The first and last row that are shown. -/
  rows : Option (Coord × Coord) := none

def black : String := "#000000"
def green : String := "#008000"
def red : String := "#ff0000"
def gray : String := "#808080"
def blue : String := "#0000ff"
def skyBlue : String := "#0099ff"

variable (g : Diagram) (opts : Options) (v : Vertex)

def pointOf : Point := { x := (g.row v).toDouble.toFloat, y := (g.qubit v).neg.toDouble.toFloat }

def hadamardBox (centre : Point) (dx dy : Float) : Patch :=
  let w := 0.2
  let h := 0.15
  let diagonal := (w * w + h * h).sqrt
  let angle := Float.atan2 dy dx
  let corner := Float.atan2 h w
  .rectangle { x := centre.x - diagonal / 2 * (angle + corner).cos
               y := centre.y - diagonal / 2 * (angle + corner).sin } w h
    (angle / Float.circleRatio * 180)

def addEdge (s : Shapes) (e : Edge) : Shapes :=
  let a := pointOf g e.1
  let b := pointOf g e.2
  let kind := g.edgeKind e
  let inRow := (g.vertices.filter fun v => (g.row v).same (g.row e.1)).length
  let dx := b.x - a.x
  let dy := b.y - a.y
  let upright := (g.row e.1).same (g.row e.2)
  let level := (g.qubit e.1).same (g.qubit e.2)
  let colour := if opts.mark = .blue ∧ kind = .hadamard then skyBlue else black
  let s :=
    if upright && opts.mark = .blue && 2 < inRow then
      let middle : Point := { x := a.x + 0.5 * dx + 0.25 * dy, y := a.y + 0.5 * dy - 0.25 * dx }
      { s with patches := s.patches ++ [.curve a middle b colour] }
    else { s with lines := s.lines ++ [{ start := a, stop := b, colour := colour }] }
  if opts.mark = .box ∧ kind = .hadamard then
    let part := if upright || level then 0.5 else 0.4
    let centre : Point := { x := a.x + part * dx, y := a.y + part * dy }
    { s with patches := s.patches ++ [hadamardBox centre dx dy] }
  else s

def addVertex (s : Shapes) (v : Vertex) : Attempt Shapes := do
  let p := pointOf g v
  let phase := g.phase v
  let disc : Patch ← match ← g.kind v with
    | .z => pure (.circle p 0.2 green)
    | .x => pure (.circle p 0.2 red)
    | _ => pure (.circle p 0.1 black)
  let number : List Label := if opts.labels then
      [{ place := { x := p.x + 0.25, y := p.y + 0.25 }, text := toString v, colour := gray, size := 5 }]
    else []
  let angle : List Label := if phase.isZero then [] else
      [{ place := { x := p.x, y := p.y - 0.5 }, text := phase.label, colour := blue, size := 8 }]
  return { s with patches := s.patches ++ [disc], texts := s.texts ++ number ++ angle }

def isShown : Bool :=
  match opts.rows with
  | none => true
  | some (first, last) => first.atMost (g.row v) && (g.row v).atMost last

def draw : Attempt Shapes := do
  let edges := g.edges.filter fun e => isShown g opts e.1 && isShown g opts e.2
  let vertices := g.vertices.filter (isShown g opts)
  vertices.foldlM (addVertex g opts) (edges.foldl (addEdge g opts) {})

end ZXCircuits.Figure
