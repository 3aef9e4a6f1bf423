/-
  Diagram files.

  A phase is a multiple of `\pi`: `\pi/4`, `3\pi/2`, `-\pi`, or the empty text for zero.  A Hadamard edge is written as a vertex of its
  own, half-way, with two plain edges, and such vertices are read as edges; two of them that are joined get a Z spider between them.
  Vertices without a name take the next free one of `v0`, `v1`, … or, on the boundary, `b0`, `b1`, ….
-/
import ZXCircuits.Diagram.Tracking

namespace ZXCircuits.Json

def members : Json → Attempt (List (String × Json))
  | obj ms => .ok ms
  | _ => .error .unsupported

def mentions (key : String) : Json → Attempt Bool
  | obj ms => .ok (ms.any (·.1 == key))
  | arr items => .ok (items.any fun
      | str s => s == key
      | _ => false)
  | str s => .ok (Text.contains key.toList s.toList)
  | _ => .error .misapplied

def member (key : String) : Json → Attempt Json
  | obj ms =>
    match ms.lookup key with
    | some j => .ok j
    | none => .error .absent
  | _ => .error .misapplied

def itemAt (i : Nat) : Json → Attempt Json
  | arr items =>
    match items[i]? with
    | some j => .ok j
    | none => .error .outOfRange
  | str s =>
    match s.toList[i]? with
    | some c => .ok (str (String.singleton c))
    | none => .error .outOfRange
  | obj _ => .error .absent
  | _ => .error .misapplied

def isTrue : Json → Bool
  | null => false
  | bool b => b
  | int n => n != 0
  | real (.finite x) => x.value != 0
  | real _ => true
  | str s => !s.isEmpty
  | arr items => !items.isEmpty
  | obj ms => !ms.isEmpty

mutual
def shownInside : Json → String
  | null => "None"
  | bool b => if b then "True" else "False"
  | int n => toString n
  | real x => x.text
  | str s => Text.quoted s.toList
  | arr items => "[" ++ shownItems items true ++ "]"
  | obj ms => "\x7b" ++ shownMembers ms true ++ "\x7d"

def shownItems : List Json → Bool → String
  | [], _ => ""
  | j :: rest, first => (if first then "" else ", ") ++ shownInside j ++ shownItems rest false

def shownMembers : List (String × Json) → Bool → String
  | [], _ => ""
  | (k, j) :: rest, first =>
    (if first then "" else ", ") ++ Text.quoted k.toList ++ ": " ++ shownInside j
      ++ shownMembers rest false
end

def shown : Json → String
  | str s => s
  | j => shownInside j

end ZXCircuits.Json

namespace ZXCircuits.QGraph

def halfTurn : List Char := ['\\', 'p', 'i']

def phaseText (q : Rat) : String :=
  let num := if q.num = -1 then "-" else if q.num = 1 then "" else toString q.num
  let den := if q.den = 1 then "" else "/" ++ toString q.den
  num ++ String.ofList halfTurn ++ den

def phaseValue (p : Exact) : Json :=
  if p.isZero then .str ""
  else
    match p with
    | .int n => .int n
    | .ratio q => .str (phaseText q)

/-- What the text of a phase means: a number of half turns, or a text that is to be read as a ratio. -/
inductive PhaseReading where
  | phase (q : Rat)
  | verbatim (s : String)
  deriving DecidableEq, Repr

/-- The ratio in front of and behind the sign of the half turn: a one is left out, and is put back before a
fraction bar and after a minus. -/
def ratioText (rest : List Char) : List Char :=
  let rest := match rest with
    | '-' :: r => '-' :: '1' :: r
    | r => r
  match rest with
  | '/' :: r => '1' :: '/' :: r
  | r => r

def readPhase (s : String) : Attempt PhaseReading :=
  let cs := s.toList
  if cs.isEmpty then .ok (.phase 0)
  else if Text.contains halfTurn cs then
    match ratioText (Text.strip (Text.remove halfTurn cs)) with
    | [] => .ok (.phase 1)
    | r =>
      match Text.readRatio r with
      | .value q => .ok (.phase q)
      | .unreadable => .error (.invalidPhase s)
      | .zeroDenominator => .error .divisionByZero
  else .ok (.verbatim s)

def PhaseReading.toRat : PhaseReading → Attempt Rat
  | .phase q => .ok q
  | .verbatim s =>
    match Text.readRatio s.toList with
    | .value q => .ok q
    | .unreadable => .error .badValue
    | .zeroDenominator => .error .divisionByZero

def number : Coord → Json
  | .int n => .int n
  | .real x => .real (.finite x)

def place (x y : Coord) : Json := .arr [number x, number y]

/-- A file under construction. -/
structure Draft where
  boundary : List (String × Json) := []
  nodes : List (String × Json) := []
  edges : List (String × Json) := []
  names : Table Vertex Json := []
  freeNodes : List String
  freeBoundary : List String

variable (g : Diagram) (d : Draft)

def Draft.start : Draft where
  freeNodes := (List.range ((g.numVertices : Int) + g.edgeCount).toNat).map fun i => s!"v{i}"
  freeBoundary := (List.range g.numVertices).map fun i => s!"b{i}"

def keyOf : Json → Attempt String
  | .str s => .ok s
  | .int n => .ok (toString n)
  | .real x => .ok (Json.realText x)
  | .bool b => .ok (if b then "true" else "false")
  | .null => .ok "null"
  | _ => .error .misapplied

def without (name : Json) (free : List String) : List String :=
  match name with
  | .str s => free.erase s
  | _ => free

def nextName : List String → Attempt (String × List String)
  | [] => .error .outOfRange
  | n :: rest => .ok (n, rest)

def Draft.name (d : Draft) (g : Diagram) (v : Vertex) (boundary : Bool) : Attempt (Json × Draft) := do
  let noted := (g.datum v "name").getD (.int 0)
  let free := if boundary then d.freeBoundary else d.freeNodes
  let (name, free) ← if noted.isTrue then pure (noted, without noted free)
    else do
      let (n, rest) ← nextName free
      pure (Json.str n, rest)
  let d := { d with names := Table.insert d.names v name }
  return (name, if boundary then { d with freeBoundary := free } else { d with freeNodes := free })

def spiderData (kind : VertexKind) (phase : Exact) : Attempt Json := do
  let colour ← match kind with
    | .x => pure "X"
    | .z => pure "Z"
    | k => throw (.unknownVertexType k.code)
  let value := phaseValue phase
  return .obj (("type", .str colour) :: if value.isTrue then [("value", value)] else [])

def Draft.addVertex (v : Vertex) : Attempt Draft := do
  let kind ← g.kind v
  let coord := place (g.row v) (g.qubit v).neg
  let (name, d) ← d.name g v (kind == .boundary)
  let key ← keyOf name
  if kind == .boundary then
    let annotation := Json.obj [("boundary", .bool true), ("coord", coord),
      ("input", .bool (g.inputs.contains v)), ("output", .bool (g.outputs.contains v))]
    return { d with boundary := Json.setMember d.boundary key (.obj [("annotation", annotation)]) }
  else
    let data ← spiderData kind (g.phase v)
    let node := Json.obj [("annotation", .obj [("coord", coord)]), ("data", data)]
    return { d with nodes := Json.setMember d.nodes key node }

def Draft.link (source target : Json) : Draft :=
  { d with edges := d.edges ++ [(s!"e{d.edges.length}", .obj [("src", source), ("tgt", target)])] }

def middle (a b : Coord) : Coord := (a.add b).divNat 2

def Draft.addEdge (e : Edge) : Attempt Draft := do
  let nameOf (v : Vertex) : Attempt Json := match Table.find? d.names v with
    | some n => .ok n
    | none => .error .absent
  match g.edgeKind e with
  | .regular => return d.link (← nameOf e.1) (← nameOf e.2)
  | .hadamard =>
    let (h, free) ← nextName d.freeNodes
    let coord := place (middle (g.row e.1) (g.row e.2)) (middle (g.qubit e.1).neg (g.qubit e.2).neg)
    let node := Json.obj [("annotation", .obj [("coord", coord)]), ("data", .obj [("type", .str "hadamard")])]
    let d := { d with freeNodes := free, nodes := Json.setMember d.nodes h node }
    return (d.link (← nameOf e.1) (.str h)).link (← nameOf e.2) (.str h)
  | _ => throw .untypedEdge

def toJson : Attempt Json := do
  let d ← g.vertices.foldlM (Draft.addVertex g) (Draft.start g)
  let d ← g.edges.foldlM (Draft.addEdge g) d
  return .obj [("wire_vertices", .obj d.boundary), ("node_vertices", .obj d.nodes), ("undir_edges", .obj d.edges)]

end ZXCircuits.QGraph

namespace ZXCircuits

def Diagram.toQGraph (g : Diagram) : Attempt String := do
  return (← QGraph.toJson g).text

end ZXCircuits

namespace ZXCircuits.QGraph

/-- A file read in part. -/
structure Reading where
  diagram : Diagram := {}
  names : Table String Vertex := []
  /-- The vertices that stand for Hadamard edges, with their neighbours so far. -/
  hadamards : Table String (List Vertex) := []
  edges : EdgeTable := []
  /-- Whether a plain edge has been read. -/
  plainSeen : Bool := false

def isHadamard (attributes : Json) : Attempt Bool := do
  if !(← attributes.mentions "data") then return false
  let data ← attributes.member "data"
  if !(← data.mentions "type") then return false
  return match ← data.member "type" with
    | .str t => t == "hadamard"
    | _ => false

def coordOf : Json → Attempt Coord
  | .int n => .ok (.int n)
  | .bool b => .ok (.int (if b then 1 else 0))
  | .real (.finite x) => .ok (if x.value.den = 1 then .int x.value.num else .real x)
  | .real (.infinite _) => .error .overflow
  | .real .nan => .error .badValue
  | .str _ => .error .badValue
  | _ => .error .misapplied

def opposite : Json → Attempt Json
  | .int n => .ok (.int (-n))
  | .bool b => .ok (.int (if b then -1 else 0))
  | .real (.finite x) => .ok (.real (.finite x.neg))
  | .real (.infinite negative) => .ok (.real (.infinite !negative))
  | .real .nan => .ok (.real .nan)
  | _ => .error .misapplied

def positionOf (coord : Json) : Attempt (Coord × Coord) := do
  let y ← opposite (← coord.itemAt 1)
  let x ← coord.itemAt 0
  return (← coordOf y, ← coordOf x)

def Reading.addVertex (s : Reading) (name : String) (coord : Json) : Attempt (Reading × Vertex) := do
  let (q, r) ← positionOf coord
  let (g, v) := s.diagram.addVertex .boundary q r (.int 0)
  return ({ s with diagram := g.setDatum v "name" (.str name), names := Table.insert s.names name v }, v)

def phaseOf (value : Json) : Attempt Rat :=
  if !value.isTrue then .ok 0
  else
    match value with
    | .str s => do (← readPhase s).toRat
    | .arr _ | .obj _ => do
      if ← value.mentions (String.ofList halfTurn) then throw .unsupported else throw .misapplied
    | _ => .error .misapplied

def colourVertex (g : Diagram) (v : Vertex) (data : Json) : Attempt Diagram := do
  let g ← if !(← data.mentions "type") then pure (g.setKind v .z)
    else do
      match ← data.member "type" with
      | .str "Z" => pure (g.setKind v .z)
      | .str "X" => pure (g.setKind v .x)
      | other => throw (.unsupportedVertex other.shown)
  if ← data.mentions "value" then
    return g.setPhase v (.ratio (← phaseOf (← data.member "value")))
  else return g.setPhase v (.ratio 0)

variable (s : Reading) (entry : String × Json) (j : Json)

def Reading.node : Attempt Reading := do
  let (name, attributes) := entry
  if ← isHadamard attributes then
    return { s with hadamards := Table.insert s.hadamards name [] }
  let coord ← (← attributes.member "annotation").member "coord"
  let (s, v) ← s.addVertex name coord
  if ← attributes.mentions "data" then
    return { s with diagram := ← colourVertex s.diagram v (← attributes.member "data") }
  else
    return { s with diagram := (s.diagram.setKind v .z).setPhase v (.ratio 0) }

def flag (key : String) (j : Json) : Bool := ((j.get? key).map Json.isTrue).getD false

def Reading.boundary : Attempt Reading := do
  let annotation ← entry.2.member "annotation"
  let (s, v) ← s.addVertex entry.1 (← annotation.member "coord")
  let g := s.diagram
  let g := if flag "input" annotation then { g with inputs := g.inputs ++ [v] } else g
  let g := if flag "output" annotation then { g with outputs := g.outputs ++ [v] } else g
  return { s with diagram := g }

def Reading.isHadamardEnd : Json → Attempt Bool
  | .str n => .ok (Table.has s.hadamards n)
  | .arr _ | .obj _ => .error .misapplied
  | _ => .ok false

def Reading.vertexAt : Json → Attempt Vertex
  | .str n =>
    match Table.find? s.names n with
    | some v => .ok v
    | none => .error .absent
  | _ => .error .absent

def Reading.noteEnd (h : Json) (v : Vertex) : Reading :=
  match h with
  | .str n =>
    { s with hadamards := Table.insert s.hadamards n ((Table.find? s.hadamards n).getD [] ++ [v]) }
  | _ => s

/-- Puts a Z spider between two nodes that stand for Hadamard edges.  This has to come before all
plain edges. -/
def Reading.bridge (h₁ h₂ : Json) : Attempt Reading := do
  if s.plainSeen then throw .misapplied
  let (g, v) := s.diagram.addVertex .z Diagram.unset Diagram.unset (.int 0)
  let name := s!"v{s.names.length}"
  let s := { s with diagram := g.setDatum v "name" (.str name), names := Table.insert s.names name v }
  return (s.noteEnd h₁ v).noteEnd h₂ v

def Reading.edge : Attempt Reading := do
  let source ← entry.2.member "src"
  let target ← entry.2.member "tgt"
  let first ← s.isHadamardEnd source
  let second ← s.isHadamardEnd target
  match first, second with
  | true, true => s.bridge source target
  | true, false => return s.noteEnd source (← s.vertexAt target)
  | false, true => return s.noteEnd target (← s.vertexAt source)
  | false, false =>
    let e := (← s.vertexAt source, ← s.vertexAt target)
    return { s with edges := s.edges.add e 1 0, plainSeen := true }

def addHadamard (edges : EdgeTable) (entry : String × List Vertex) : Attempt EdgeTable :=
  match entry.2 with
  | [v, w] => .ok (edges.add (v, w) 0 1)
  | _ => .error .irregularHadamard

def part (key : String) : Attempt (List (String × Json)) := do
  match (← j.members).lookup key with
  | some p => p.members
  | none => return []

def ofJson : Attempt Diagram := do
  let s ← (← part j "node_vertices").foldlM Reading.node {}
  let s ← (← part j "wire_vertices").foldlM Reading.boundary s
  let s ← (← part j "undir_edges").foldlM Reading.edge s
  s.diagram.addEdgeTable (← s.hadamards.foldlM addHadamard s.edges)

end ZXCircuits.QGraph

namespace ZXCircuits

def Diagram.ofQGraph (text : String) : Attempt Diagram :=
  match Json.parse? text with
  | some j => QGraph.ofJson j
  | none => .error .malformedJson

end ZXCircuits
