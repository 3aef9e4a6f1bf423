/-
  Phase gadgets.

  A gadget is a vertex with a phase and a single neighbour, the axle, which is joined to the vertices the gadget acts on.  Gadgets on
  the same vertices are merged.  Adding fixed phases to the fifteen gadgets on subsets of four vertices changes nothing
  (`GadgetGroup`).
-/
import ZXCircuits.Rule.Basic

namespace ZXCircuits.Gadget

/-- A gadget that stays, its new phase, and the axles and leaves of those that go. -/
structure Place where
  leaf : Vertex
  axle : Vertex
  phase : Exact
  otherAxles : List Vertex
  otherLeaves : List Vertex
  deriving DecidableEq, Repr

/-- Gadgets by the vertices they act on, and the leaf of each axle. -/
structure Survey where
  groups : Table (List Vertex) (List Vertex) := []
  leaves : Std.TreeMap Vertex Vertex := ∅

variable (g : Diagram) (s : Survey) (n : Vertex)

def note (v : Vertex) : Survey :=
  match g.nearby v with
  | [n] =>
    if 2 < (g.phase v).den then
      let par := ascending ((g.nearby n).filter (· != v))
      { groups := s.groups.insert par (((s.groups.find? par).getD []) ++ [n])
        leaves := s.leaves.insert n v }
    else s
  | _ => s

def surveyOf : Survey := g.vertices.foldl (note g) {}

def Survey.leaf : Vertex := (s.leaves.get? n).getD 0

def signedPhase : Rat :=
  let p := (g.phase (s.leaf n)).toRat
  if (g.phase n).isZero then p else -p

def collect (acc : Diagram × List Place) (axles : List Vertex) : Attempt (Diagram × List Place) := do
  let (g, places) := acc
  match axles with
  | [n] =>
    if (g.phase n).isZero then return acc
    let v := s.leaf n
    return (← g.negatePhase v, places ++ [⟨v, n, (g.phase v).neg, [], []⟩])
  | _ =>
    let total := Rat.modTwo ((axles.map (signedPhase g s)).foldl (· + ·) 0)
    let g' ← axles.foldlM (fun h n => if (g.phase n).isZero then pure h
      else h.negatePhase (s.leaf n)) g
    match axles.getLast? with
    | none => return (g', places)
    | some n =>
      let others := axles.dropLast
      return (g', places ++ [⟨s.leaf n, n, .ratio total, others, others.map s.leaf⟩])

def find : Attempt (Diagram × List Place) :=
  let s := surveyOf g
  s.groups.values.foldlM (collect s) (g, [])

def merge (p : Place) : Attempt Diagram :=
  let g := (g.setPhase p.leaf p.phase).setPhase p.axle (.int 0)
  p.otherLeaves.foldlM (fun g w => g.fusePhases p.leaf w) g

def effect (places : List Place) : Attempt (Diagram × Effect) := do
  let g ← places.foldlM merge g
  return (g, { vertices := places.flatMap fun p => p.otherAxles ++ p.otherLeaves, sweep := false })

end ZXCircuits.Gadget

namespace ZXCircuits.GadgetGroup

/-- Where the phase on a set of vertices is: on an axle with a leaf, or on the only vertex itself. -/
inductive Site where
  | gadget (axle leaf : Vertex)
  | own (v : Vertex)
  deriving DecidableEq, Repr

/-- Four vertices with the sets that carry phases. -/
structure Group where
  vertices : List Vertex
  sites : Table (List Vertex) Site
  deriving DecidableEq, Repr

def setLe (a b : List Vertex) : Bool := lexLe (fun x y => x ≤ y) a b

def insertSet (s : List Vertex) (sets : List (List Vertex)) : List (List Vertex) :=
  if sets.contains s then sets else (s :: sets).mergeSort setLe

/-- The sets that carry phases, by the vertices in them, and the gadgets. -/
structure Survey where
  targets : Table Vertex (List (List Vertex)) := []
  gadgets : Table (List Vertex) (Vertex × Vertex) := []

def Survey.addTo (s : Survey) (v : Vertex) (set : List Vertex) : Survey :=
  { s with targets := s.targets.insert v (insertSet set ((s.targets.find? v).getD [])) }

def isEighth (p : Exact) : Bool := p.den == 4

variable (g : Diagram) (group : Group)

def note (s : Survey) (v : Vertex) : Survey :=
  let p := g.phase v
  let own (s : Survey) : Survey := if isEighth p then s.addTo v [v] else s
  match g.isBoundaryVertex v, g.nearby v with
  | false, [n] =>
    if !p.isZero && !isEighth p then s
    else
      let set := ascending ((g.nearby n).filter (· != v))
      if 4 < set.length then s
      else
        let s := { s with gadgets := s.gadgets.insert set (n, v) }
        own (set.foldl (fun s t => s.addTo t set) s)
  | _, _ => own s

def choose : Nat → List Vertex → List (List Vertex)
  | 0, _ => [[]]
  | _ + 1, [] => []
  | k + 1, v :: rest => (choose k rest).map (v :: ·) ++ choose (k + 1) rest

abbrev Groups := Table (List Vertex) (List (List Vertex))

def setsWithin (targets : Table Vertex (List (List Vertex))) (group : List Vertex) : List (List Vertex) :=
  group.foldl (fun acc t =>
    (((targets.find? t).getD []).filter fun s => s.all group.contains).foldl
      (fun acc s => insertSet s acc) acc) []

def extend (targets : Table Vertex (List (List Vertex))) (groups : Groups) (c : List Vertex) : Groups :=
  let near := ascending (c.flatMap fun t =>
    (((targets.find? t).getD []).flatten).filter targets.has)
  (choose (4 - c.length) (near.filter fun v => !c.contains v)).foldl (fun groups extra =>
    let group := extra ++ c
    let sets := setsWithin targets group
    if 7 < sets.length then groups.insert (ascending group) sets else groups) groups

def around (targets : Table Vertex (List (List Vertex))) (groups : Groups) (entry : Vertex × List (List Vertex)) : Groups :=
  let (v, sets) := entry
  let sets := sets.filter (· != [v])
  let smallest := sets.filter fun d => !sets.any fun e => e != d && e.all d.contains
  smallest.foldl (fun groups c =>
    if c.all (fun w => targets.has w && v ≤ w) then extend targets groups c else groups) groups

def disjoint : List (List Vertex × List (List Vertex)) → List Vertex → List (List Vertex × List (List Vertex))
  | [], _ => []
  | (group, sets) :: rest, taken =>
    if group.any taken.contains then disjoint rest taken
    else (group, sets) :: disjoint rest (group ++ taken)

def find (g : Diagram) : Attempt (List Group) := do
  let s := g.vertices.foldl (note g) {}
  let targets : Table Vertex (List (List Vertex)) := s.targets.filter fun t => 1 < t.2.length
  let groups : Groups := targets.foldl (around targets) []
  let chosen := disjoint (groups.mergeSort fun a b => b.2.length ≤ a.2.length) []
  chosen.mapM fun (group, sets) => do
    let sites ← sets.mapM fun set => do
      match set with
      | [v] => return (set, Site.own v)
      | _ =>
        let (axle, leaf) ← orAbsent (s.gadgets.find? set)
        return (set, Site.gadget axle leaf)
    return ⟨group, sites⟩

/-! ## Applying the equation -/

def gadgetOn (set : List Vertex) (near : Vertex)
    (edges : Vertex → List Edge) : Attempt (Diagram × Vertex × Rat) := do
  match group.sites.find? (ascending set) with
  | some (.gadget axle leaf) =>
    let p ← g.phaseAt leaf
    if (← g.phaseAt axle).isZero then return (g, leaf, p.toRat)
    return (g.setPhase axle (.int 0), leaf, -p.toRat)
  | some (.own _) => throw .misapplied
  | none =>
    let row := (← g.rowAt near).add Coord.half
    let (g, axle) := g.addVertex .z Diagram.unset row (.int 0)
    let (g, leaf) := g.addVertex .z (.int (-2)) row (.int 0)
    let g ← g.addEdges ((axle, leaf) :: edges axle) .hadamard
    return (g, leaf, 0)

def addOn (p : Rat) (set : List Vertex) (near : Vertex)
    (edges : Vertex → List Edge) (g : Diagram) : Attempt Diagram := do
  let (g, leaf, old) ← gadgetOn g group set near edges
  return g.setPhase leaf (.ratio (old + p))

def applyOne : Attempt Diagram := do
  let vs := group.vertices
  let at_ (i : Nat) : Attempt Vertex := orOutOfRange vs[i]?
  let into (ws : List Vertex) (axle : Vertex) : List Edge := ws.map fun w => (w, axle)
  let g ← (List.range 4).foldlM (fun g i => do
    let v₁ ← at_ i
    let g := g.addToPhase v₁ (.ratio (5 / 4))
    ((List.range 4).filter (i < ·)).foldlM (fun g j => do
      let v₂ ← at_ j
      let g ← addOn group (3 / 4) [v₁, v₂] v₂ (into [v₁, v₂]) g
      ((List.range 4).filter (j < ·)).foldlM (fun g k => do
        let v₃ ← at_ k
        addOn group (1 / 4) [v₁, v₂, v₃] v₃ (into [v₁, v₂, v₃]) g) g) g) g
  let first ← at_ 0
  addOn group (7 / 4) vs first (fun axle => vs.map fun w => (axle, w)) g

def apply (groups : List Group) : Attempt Diagram := groups.foldlM applyOne g

end ZXCircuits.GadgetGroup
