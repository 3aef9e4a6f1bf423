/-
  Pictures of diagrams in the TikZ language.
-/
import ZXCircuits.Diagram.Basic

namespace ZXCircuits.Tikz

structure Node where
  style : String
  number : Int
  x : Coord
  y : Coord
  label : String
  deriving Repr

structure Line where
  hadamard : Bool
  source : Int
  target : Int
  deriving DecidableEq, Repr

structure Picture where
  nodes : List Node := []
  lines : List Line := []

/-- Where a diagram is put: how far to the right, how far down, and what is added to its numbers. -/
structure Offset where
  x : Coord := .int 0
  y : Coord := .int 0
  number : Int := 0

def phaseLabel (p : Exact) : String :=
  if p.isZero then ""
  else
    let num := if p.num = 1 then "" else toString p.num
    if p.den = 1 then "$" ++ num ++ "\\pi$"
    else "$\\frac\x7b" ++ num ++ "\\pi\x7d\x7b" ++ toString p.den ++ "\x7d$"

def vertexStyle (k : VertexKind) (p : Exact) : String :=
  if k = .boundary then "none"
  else (if k = .z then "Z" else "X") ++ (if p.isZero then "" else " phase") ++ " dot"

variable (g : Diagram) (o : Offset)

def vertexNode (v : Vertex) : Attempt Node := do
  let p := g.phase v
  return { style := vertexStyle (← g.kind v) p, number := v + o.number,
           x := (g.row v).add o.x, y := (g.qubit v).neg.sub o.y, label := phaseLabel p }

def addLine (acc : Picture × Int) (e : Edge) : Attempt (Picture × Int) := do
  let (pic, last) := acc
  let line (hadamard : Bool) : Line :=
    { hadamard := hadamard, source := e.1 + o.number, target := e.2 + o.number }
  let add (hadamard : Bool) : Picture := { pic with lines := pic.lines ++ [line hadamard] }
  if g.edgeKind e = .hadamard then
    if (← g.kind e.1) ≠ .boundary ∧ (← g.kind e.2) ≠ .boundary then return (add true, last)
    else
      let node : Node :=
        { style := "hadamard", number := last + 1
          x := (((g.row e.1).add (g.row e.2)).divNat 2).add o.x
          y := ((((g.qubit e.1).add (g.qubit e.2)).neg).divNat 2).sub o.y
          label := "" }
      return ({ add false with nodes := pic.nodes ++ [node] }, last + 1)
  else return (add false, last)

def picture : Attempt Picture := do
  let nodes ← g.vertices.mapM (vertexNode g o)
  let last := nodes.foldl (fun m n => max m n.number) o.number
  return (← g.edges.foldlM (addLine g o) ({ nodes := nodes }, last)).1

def Offset.next (g : Diagram) (maxWidth : Coord) (largest : Vertex) : Offset :=
  let width := g.depth
  let number := o.number + ((largest + 2 * g.inputs.length + 1 : Nat) : Int)
  if maxWidth.less ((o.x.add width).add (.int 2)) then
    { x := maxWidth.neg, y := o.y.add (g.qubitCount.add (.int 2)), number := number }
  else { x := o.x.add (width.add (.int 2)), y := o.y, number := number }

def addToSequence (maxWidth : Coord) (acc : Picture × Offset) (g : Diagram) : Attempt (Picture × Offset) :=
  match g.vertices.max? with
  | none => .error .badValue
  | some largest => do
    let pic ← picture g acc.2
    return ({ nodes := acc.1.nodes ++ pic.nodes, lines := acc.1.lines ++ pic.lines }, acc.2.next g maxWidth largest)

def sequence (gs : List Diagram) (maxWidth : Coord) : Attempt Picture := do
  return (← gs.foldlM (addToSequence maxWidth)
    ({}, { x := maxWidth.neg, y := .int (-10) })).1

/-! ## The text -/

def Node.text (n : Node) : String :=
  "        \\node [style=" ++ n.style ++ "] (" ++ toString n.number ++ ") at (" ++ n.x.fixedText
    ++ ", " ++ n.y.fixedText ++ ") \x7b" ++ n.label ++ "\x7d;"

def Line.text (l : Line) : String :=
  "        \\draw " ++ (if l.hadamard then "[style=hadamard edge] " else "") ++ "("
    ++ toString l.source ++ ") to (" ++ toString l.target ++ ");"

def Picture.text (p : Picture) : String :=
  "\n\\begin\x7btikzpicture\x7d\n    \\begin\x7bpgfonlayer\x7d\x7bnodelayer\x7d\n"
    ++ "\n".intercalate (p.nodes.map Node.text)
    ++ "\n    \\end\x7bpgfonlayer\x7d\n    \\begin\x7bpgfonlayer\x7d\x7bedgelayer\x7d\n"
    ++ "\n".intercalate (p.lines.map Line.text)
    ++ "\n    \\end\x7bpgfonlayer\x7d\n\\end\x7btikzpicture\x7d\n"

end ZXCircuits.Tikz

namespace ZXCircuits

def Diagram.toTikz (g : Diagram) (o : Tikz.Offset) : Attempt String := do
  return (← Tikz.picture g o).text

end ZXCircuits
