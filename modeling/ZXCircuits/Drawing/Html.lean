/-
  Diagrams in web pages.
-/
import ZXCircuits.Drawing.Shapes

namespace ZXCircuits.Html

def numeral : Coord → Json
  | .int n => .int n
  | .real x => .real (.finite x)

def defaultScale (depth : Coord) : Attempt Coord :=
  let rows := depth.add (.int 2)
  if rows.same (.int 0) then .error .divisionByZero
  else
    let s := (Coord.int 800).div rows
    if (Coord.int 50).less s then .ok (.int 50)
    else if s.less (.int 20) then .ok (.int 20)
    else .ok s

def fifth : Coord := .real (Binary64.ofRat (1 / 5))

def nodeSize (scale : Coord) : Coord :=
  let s := fifth.mul scale
  if s.less (.int 2) then .int 2 else s

def node (g : Diagram) (scale : Coord) (v : Vertex) : Attempt Json := do
  return .obj [("name", .str (toString v)), ("x", numeral (((g.row v).add (.int 1)).mul scale)),
    ("y", numeral (((g.qubit v).add (.int 2)).mul scale)), ("t", .int (← g.kind v).code),
    ("phase", .str (g.phase v).label)]

def link (g : Diagram) (e : Edge) : Json :=
  .obj [("source", .str (toString e.1)), ("target", .str (toString e.2)), ("t", .int (g.edgeKind e).code)]

def page (number : Nat) (g : Diagram) (scale : Option Coord) : Attempt String := do
  let scale ← match scale with
    | some s => pure s
    | none => defaultScale g.depth
  let nodes ← g.vertices.mapM (node g scale)
  let graph := Json.obj [("nodes", .arr nodes), ("links", .arr (g.edges.map (link g)))]
  let width := (g.depth.add (.int 2)).mul scale
  let height := (g.qubitCount.add (.int 3)).mul scale
  return "\n    <div style=\"overflow:auto\" id=\"graph-output-" ++ toString number ++ "\"></div>\n"
    ++ "    <script type=\"text/javascript\">\n"
    ++ "    require.config(\x7b baseUrl: \"../js\",\n"
    ++ "                     paths: \x7bd3: \"d3.v4.min\"\x7d \x7d);\n"
    ++ "    require(['pyzx'], function(pyzx) \x7b\n"
    ++ "        pyzx.showGraph('#graph-output-" ++ toString number ++ "',\n"
    ++ "        JSON.parse('" ++ graph.text ++ "'), " ++ width.text ++ ", " ++ height.text ++ ", "
    ++ (nodeSize scale).text ++ ");\n"
    ++ "    \x7d);\n    </script>\n    "

end ZXCircuits.Html
