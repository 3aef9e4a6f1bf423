/-
  Extracting a circuit from a diagram.

  Everything before the frontier, a row of vertices, has become gates.  Phases on it and edges within it are taken off as gates, and a
  vertex with a single neighbour beyond hands its wire over; else controlled nots or a phase gadget are taken off.
-/
import ZXCircuits.Extract.Gadget
import ZXCircuits.Strategy.Basic
import ZXCircuits.Permutation

namespace ZXCircuits

namespace Extract

structure Frontier where
  diagram : Diagram
  gates : List Gate := []
  leaves : Leaves := []
  row : Coord := .int 1
  /-- One more than the last wire in use. -/
  nextWire : Coord
  /-- How many phases and gadgets have been taken off, and how many make the next report. -/
  done : Nat := 0
  report : Int := 10
  /-- Whether identities were looked for since the frontier moved. -/
  triedIdentities : Bool := false

namespace Frontier

variable (s : Frontier) (v : Vertex)

def emit (gs : List Gate) : Frontier := { s with gates := s.gates ++ gs }

def neighboursWith (rel : Coord → Bool) : Attempt (List Vertex) := do
  (← s.diagram.neighbours v).filterM fun w => do return rel (← s.diagram.rowAt w)

def beyond : Attempt (List Vertex) := s.neighboursWith v s.row.less

def left : Attempt (List Vertex) := s.diagram.vertices.filterM fun v => do return (← s.diagram.rowAt v).same s.row

/-! ## Gates on the frontier -/

def takeSingle : Attempt Frontier := do
  let g := s.diagram
  let q ← g.qubitAt v
  let p ← g.phaseAt v
  let k ← g.kind v
  match ← s.neighboursWith v (·.less s.row) with
  | [n] =>
    if !((← g.qubitAt n).same q) then throw .crossQubit
    let e := Diagram.edge n v
    let (g, gates) ← if g.edgeKind e = .hadamard then do
        pure (← g.setEdgeKind e .regular, [Gate.had (← Circuit.wireOf q)])
      else pure (g, [])
    let s := { s with diagram := g }.emit gates
    if k = .boundary || p.isZero then return s
    let wire ← Circuit.wireOf q
    let rotation := if k = .z then Gate.zPhase wire p.toRat else Gate.xPhase wire p.toRat
    return { s with diagram := g.setPhase v (.int 0)
                    done := if 2 < p.den then s.done + 1 else s.done }.emit [rotation]
  | _ => throw .multipleParents

def takeVertical (s : Frontier) (n : Vertex) : Attempt Frontier := do
  let g := s.diagram
  let gate ← Circuit.verticalGate (← g.kind v) (← g.kind n) (g.edgeKind (Diagram.edge v n))
    (← Circuit.wireOf (← g.qubitAt v)) (← Circuit.wireOf (← g.qubitAt n))
  return { s with diagram := ← g.removeEdge (Diagram.edge v n) }.emit [gate]

/-- What a look beyond the frontier finds. -/
structure Outlook where
  state : Frontier
  /-- The vertices beyond, ascending. -/
  right : List Vertex := []
  /-- Vertices with a single neighbour beyond, with that neighbour. -/
  ready : List (Vertex × Vertex) := []
  /-- Vertices whose only neighbour beyond is an output. -/
  finished : List Vertex := []
  /-- Vertices without a neighbour beyond. -/
  ended : List Vertex := []

def lookBeyond (ancillas : Bool) (o : Outlook) (v : Vertex) : Attempt Outlook := do
  let s := o.state
  let level ← s.neighboursWith v (·.same s.row)
  let s ← (level.filter (· < v)).foldlM (takeVertical v) s
  let ws ← s.beyond v
  let o := { o with state := s, right := ascending (o.right ++ ws) }
  match ws with
  | [] =>
    if ancillas then return { o with ended := o.ended ++ [v] }
    throw .notCircuitLike
  | [w] =>
    if (← s.diagram.kind w) = .boundary then
      return { o with finished := o.finished ++ [v], right := o.right.filter (· != w) }
    return { o with ready := o.ready ++ [(v, w)] }
  | _ => return o

def takeGates (ancillas : Bool) (left : List Vertex) : Attempt Outlook := do
  let s ← left.foldlM takeSingle s
  left.foldlM (lookBeyond ancillas) { state := s }

def closeWire (verbose : Bool) (s : Frontier) (v : Vertex) : Run Frontier := do
  let q ← s.diagram.qubitAt v
  Run.sayIf verbose s!"postselect {v} {q.text}\n"
  let s := { s with diagram := s.diagram.setRow v (s.row.sub .half) }.emit
    [.postSelect (← Circuit.wireOf q)]
  return if q.same (s.nextWire.sub (.int 1)) then { s with nextWire := s.nextWire.sub (.int 1) } else s

/-! ## Gadgets -/

def takeFreeGadget (left : List Vertex) (s : Frontier) (axle : Vertex) : Attempt (Frontier × Bool) := do
  let g := s.diagram
  let leaf ← orAbsent (s.leaves.find? axle)
  let neighbours ← g.neighbours axle
  if !neighbours.contains leaf then throw .absent
  let targets := ascending (neighbours.filter (· != leaf))
  if !targets.all left.contains then return (s, false)
  let sign ← g.phaseAt axle
  if !(sign.isZero || sign.toRat == 1) then throw .gadgetPhase
  let phase := (← g.phaseAt leaf).toRat
  let wires ← targets.mapM fun t => do Circuit.wireOf (← g.qubitAt t)
  let s := s.emit [.parity (if sign.isZero then phase else -phase) wires]
  return ({ s with
    diagram := ← g.removeVertices [leaf, axle]
    leaves := s.leaves.erase axle
    done := s.done + 1 }, true)

def takeFreeGadgets (left : List Vertex) : List Vertex → Frontier → List Vertex → Attempt (Frontier × List Vertex)
  | [], s, right => .ok (s, right)
  | n :: rest, s, right => do
    let (s, taken) ← takeFreeGadget left s n
    takeFreeGadgets left rest s (if taken then right.filter (· != n) else right)

/-! ## Identities -/

/-- Removes identities beyond the frontier and fuses vertices from the frontier on.  Nothing is given back if there
    were no identities. -/
def removeIdentities (left : List Vertex) (verbose : Bool) : Run (Option Frontier) := do
  let g := s.diagram
  let (g, rounds) ← (Rule.identity fun v => s.row.less (g.row v)).exhaust false g
  if rounds = 0 then return none
  Run.sayIf verbose "id_simp found some matches\n"
  let on (v : Vertex) : Bool := s.row.atMost (g.row v)
  let places := (Fusion.find g (fun e => on e.1 && on e.2) none).map fun p =>
    if left.contains p.keep then p else ⟨p.remove, p.keep⟩
  Run.sayIf (verbose && !places.isEmpty) "spider fusion found some matches\n"
  let (g, e) ← Fusion.effect g places
  let g ← g.addEdgeTable e.table
  return some { s with diagram := ← g.removeVertices e.vertices }

/-! ## Controlled nots -/

/-- A frontier with the vertices beyond it and their connections, one row for each vertex of the frontier. -/
structure Bridge where
  state : Frontier
  right : List Vertex
  matrix : BitMatrix

def shieldFirst (b : Bridge) (v : Vertex) : Attempt Bridge := do
  let g := b.state.diagram
  match (← g.neighbours v).find? g.outputs.contains with
  | none => return b
  | some o =>
    let (g, w) := g.addVertex .z (← g.qubitAt o) ((← g.rowAt o).sub (.int 1)) (.int 0)
    let e := Diagram.edge v o
    let k := g.edgeKind e
    let g ← g.removeEdge e
    let g ← g.addEdge (v, w) .hadamard
    let g ← g.addEdge (w, o) k.toggle
    match b.right.findIdx? (· == o) with
    | none => throw .badValue
    | some i => return { b with state := { b.state with diagram := g }, right := b.right.set i w }

def takeNot (left : List Vertex) (b : Bridge) (step : Nat × Nat) : Attempt Bridge := do
  let c ← orOutOfRange left[step.1]?
  let t ← orOutOfRange left[step.2]?
  let g := b.state.diagram
  let gate := Gate.cnot (← Circuit.wireOf (← g.qubitAt t)) (← Circuit.wireOf (← g.qubitAt c))
  let b ← shieldFirst { b with state := b.state.emit [gate] } c
  let g ← (b.right.zip (List.range b.right.length)).foldlM (fun g (w, k) => do
    if !b.matrix.bit step.1 k then return g
    if b.matrix.bit step.2 k then g.removeEdge (t, w) else g.addEdge (t, w) .hadamard)
    b.state.diagram
  return { b with state := { b.state with diagram := g }, matrix := b.matrix.addRow step.1 step.2 }

def readyAmong (left : List Vertex) : Attempt (List (Vertex × Vertex)) := do
  left.foldlM (fun acc v => do
    match ← s.beyond v with
    | [w] => return if (← s.diagram.kind w) = .boundary then acc else acc ++ [(v, w)]
    | _ => return acc) []

/-! ## Moving on -/

def advance (ready : List (Vertex × Vertex)) : Attempt Frontier := do
  let stay := ready.map (·.1)
  let one := Coord.int 1
  let g ← s.diagram.vertices.foldlM (fun g v => do
    let r ← g.rowAt v
    return if r.less s.row || stay.contains v then g else g.setRow v (r.add one)) s.diagram
  let g ← ready.foldlM (fun g (v, w) => do
    return (g.setRow w (s.row.add one)).setQubit w (← g.qubitAt v)) g
  return { s with diagram := g, row := s.row.add one, triedIdentities := false }

def roundTens (n : Int) : Int :=
  let q := n / 10
  let r := n % 10
  10 * (if r < 5 ∨ (r = 5 ∧ q % 2 = 0) then q else q + 1)

def tell (total : Nat) (verbose : Bool) : Run Frontier := do
  if verbose && s.report < s.done then
    Run.say s!"{s.done}/{total}\n"
    return { s with report := roundTens (s.done - 5) + 10 }
  return s

/-! ## One step -/

/-- What a step of the extraction ends with. -/
inductive Outcome where
  /-- The frontier has changed. -/
  | again (s : Frontier)
  /-- Only outputs are left beyond; the vertices of the frontier are given. -/
  | arrived (s : Frontier) (left : List Vertex)
  /-- As many gates as were asked for have been taken off. -/
  | stopped (s : Frontier)

structure Options where
  ancillas : Bool := false
  verbose : Bool := false
  /-- Stop as soon as there are more gates than this. -/
  stop : Option Int := none

def Options.enough (o : Options) (s : Frontier) : Bool :=
  match o.stop with
  | some n => n < s.gates.length
  | none => false

def isGadgetFailure : Failure → Bool
  | .noGadget | .noReducibleRow | .badValue | .impossibleMatching => true
  | _ => false

def forceGadget (opts : Options) (s : Frontier) (left right finished : List Vertex) : Run Frontier := do
  let (g, gates, row) ← tryCatch (takeGadget s.diagram left right s.leaves opts.verbose) fun e =>
    throw (if opts.ancillas && isGadgetFailure e then .anonymous else e)
  let s := { s with diagram := g, done := s.done + 1, triedIdentities := false }.emit gates
  if s.row.less row then
    return { s with diagram := finished.foldl (fun g v => g.setRow v row) s.diagram, row := row }
  return s

def unblock (opts : Options) (total : Nat) (s : Frontier) (left right finished : List Vertex) : Run Outcome := do
  let m ← s.diagram.connections right left
  let reduced := (m.reduce true BitMatrix.standardWidth).matrix
  if !(reduced.toRows.any fun r => BitMatrix.total r = 1) then
    let found ← if s.triedIdentities then pure none else removeIdentities s left opts.verbose
    match found with
    | some s => return .again { s with triedIdentities := true }
    | none => return .again (← forceGadget opts s left right finished)
  match ← m.greedyReduction with
  | none =>
    let movable := right.filter fun w => !s.leaves.has w
    let (g, gates, success) ← greedyCut s.diagram left right movable opts.verbose
    if !success then throw .unreachable
    return .again ({ s with diagram := g }.emit gates)
  | some steps =>
    Run.sayIf opts.verbose s!"Greedy reduction with {steps.length} CNOTs\n"
    let b ← takeNots left steps ⟨s, right, m⟩
    let ready ← b.state.readyAmong left
    if ready.isEmpty then return .again b.state
    pass opts total (← b.state.advance ready)
where
  /-- Takes off controlled nots one after another. -/
  takeNots (left : List Vertex) (steps : List (Nat × Nat)) (b : Bridge) : Attempt Bridge :=
    steps.foldlM (takeNot left) b
  /-- Ends a step in which the frontier has moved on. -/
  pass (opts : Options) (total : Nat) (s : Frontier) : Run Outcome := do
    let s ← s.tell total opts.verbose
    return if opts.enough s then .stopped s else .again s

def step (opts : Options) (total : Nat) (s : Frontier) : Run Outcome := do
  let left ← s.left
  let o ← s.takeGates opts.ancillas left
  let s ← o.ended.foldlM (closeWire opts.verbose) o.state
  let left := left.filter fun v => !o.ended.contains v
  if !o.ready.isEmpty then return ← unblock.pass opts total (← s.advance o.ready)
  let kinds ← kindsOf s.diagram o.right
  if kinds.all (· == .boundary) then return .arrived s left
  let left := left.filter fun v => !o.finished.contains v
  let (s', right) ← takeFreeGadgets left (o.right.filter s.leaves.has) s o.right
  if opts.enough s' then return .stopped s'
  if right.length < o.right.length then return .again s'
  unblock opts total s' left right o.finished
where
  /-- The kinds of some vertices, up to the first that is no output. -/
  kindsOf (g : Diagram) (vs : List Vertex) : Attempt (List VertexKind) :=
    vs.mapM g.kind

def run (opts : Options) (total : Nat) : Nat → Frontier → Run Outcome
  | 0, _ => throw .stepLimit
  | fuel + 1, s => do
    match ← s.step opts total with
    | .again s => run opts total fuel s
    | other => return other

/-! ## The end -/

def settle (acc : Frontier × Table Int Int) (v : Vertex) : Attempt (Frontier × Table Int Int) := do
  let (s, ends) := acc
  let g := s.diagram
  let q ← g.qubitAt v
  match ← s.beyond v with
  | [n] =>
    if (← g.kind n) ≠ .boundary then throw .notReducible
    let e := Diagram.edge n v
    let wire ← Circuit.wireOf q
    let s ← if g.edgeKind e = .hadamard then do
        pure ({ s with diagram := ← g.setEdgeKind e .regular }.emit [.had wire])
      else pure s
    return (s, Table.insert ends wire (← Circuit.wireOf (← g.qubitAt n)))
  | _ => throw .notReducible

def close (left : List Vertex) : Attempt Frontier := do
  let (s, ends) ← left.foldlM settle (s, [])
  if ends.all fun kv => kv.1 == kv.2 then return s
  let swaps ← Permutation.swapsOf ends
  return s.emit (swaps.map fun (a, b) => Gate.swap a b)

def prepare (g : Diagram) : Attempt (Diagram × Leaves) :=
  g.vertices.foldlM (fun (g, leaves) v => do
    let leaves := match ← g.neighbours v with
      | [n] => if g.isBoundaryVertex v then leaves else Table.insert leaves n v
      | _ => leaves
    let r ← g.rowAt v
    return (if (Coord.int 1).less r then g.setRow v (r.add (.int 20)) else g, leaves))
    (g, ([] : Leaves))

def lastWire (g : Diagram) : Attempt Coord :=
  match Coord.maximum g.qubits.values with
  | some q => .ok q
  | none => .error .badValue

end Frontier

end Extract

def Diagram.extract (g : Diagram) (opts : Extract.Frontier.Options) : Run (Circuit × Diagram) := do
  let g ← g.normalise
  let qubits ← Circuit.wireOf g.qubitCount
  let last ← Extract.Frontier.lastWire g
  let total := g.tCount
  let (g, leaves) ← Extract.Frontier.prepare g
  let start : Extract.Frontier :=
    { diagram := g, leaves := leaves, nextWire := last.add (.int 1) }
  let s ← match ← start.run opts total (g.stepBound + 1) with
    | .arrived s left => liftM (s.close left)
    | .again s | .stopped s => pure s
  return ({ qubits := qubits, gates := s.gates }, s.diagram)

end ZXCircuits
