/-
  Splitting a circuit into phase blocks.

  A circuit is brought into lanes of Hadamards, rotations about the Z axis and controlled signs.  Layers of Hadamards and blocks
  without them are taken off in turn; a controlled sign between two Hadamards on one wire counts as a controlled not.
-/
import ZXCircuits.PhaseBlock.Resynthesis
import ZXCircuits.Circuit.Basic

namespace ZXCircuits

namespace PhaseBlock

/-! ## Laying the gates out -/

def isSign (g : Gate) : Bool := g.isCzLike

def farEnd (g : Gate) (wire : Int) : Int :=
  if g.target = wire then g.control else g.target

variable (l : Lanes) (wire : Int) (s : Layer)

def popLast : Attempt Lanes := do
  let gs ← l.on wire
  if gs.isEmpty then throw .outOfRange
  return PerWire.set l wire gs.dropLast

def pushAll (gs : List Gate) : Attempt Lanes := gs.foldlM (fun l g => l.push wire g) l

def addHadamard (g : Gate) : Attempt Lanes := do
  match (← l.on wire).getLast? with
  | some h => if h.isHad then popLast l wire else l.push wire g
  | none => l.push wire g

def signsMeet (a b : Int) : Attempt Bool := do
  let touches (h : Gate) (w : Int) : Bool := h.control == w || h.target == w
  match (← l.on a).getLast?, (← l.on b).getLast? with
  | some g, some h => return isSign g && isSign h && touches g b && touches h a
  | _, _ => return false

def layOut (g : Gate) : Attempt Lanes := do
  match g.op with
  | .rotation k t p =>
    if k.isZ then l.push t (.zPhase t p)
    else if k = .not then
      let l ← addHadamard l t (.had t)
      pushAll l t [.z t, .had t]
    else throw (g.refusal .unsupportedBlockGate)
  | .had t => addHadamard l t g
  | .pair .cnot c t =>
    let sign := Gate.cz c t
    if ← signsMeet l c t then
      let l ← popLast l c
      let l ← popLast l t
      let l ← pushAll l c [.s c false, sign]
      pushAll l t [.s t false, .had t, sign, .had t, .s t true]
    else
      let l ← addHadamard l t (.had t)
      let l ← l.push c sign
      let l ← l.push t sign
      l.push t (.had t)
  | .pair _ c t =>
    if ← signsMeet l c t then
      let l ← popLast l c
      popLast l t
    else
      let l ← l.push c g
      l.push t g
  | _ => throw (g.refusal .unsupportedBlockGate)

def lanesOf (c : Circuit) : Attempt Lanes := c.gates.foldlM layOut (Lanes.empty c.qubits)

/-! ## Taking off a layer of Hadamards -/

/-- A layer being taken off: the Hadamards of the layer and the controlled nots found, the last ones first, and
    the wires that are done. -/
structure Layer where
  lanes : Lanes
  hadamards : List Gate := []
  nots : List Gate := []
  claimed : List Int := []

def Layer.takeHead (wire : Int) : Attempt Layer := do
  match ← s.lanes.on wire with
  | [] => throw .outOfRange
  | g :: rest =>
    return { s with lanes := PerWire.set s.lanes wire rest, hadamards := g :: s.hadamards }

def positionOf (g : Gate) (gs : List Gate) : Attempt Nat :=
  match gs.findIdx? (·.same g) with
  | some i => .ok i
  | none => .error .badValue

/-- Takes off a controlled sign between two Hadamards as a controlled not, if no Hadamard stands before it on
    the other wire; else the first Hadamard. -/
def Layer.takeNot (wire : Int) (sign : Gate) : Attempt Layer := do
  let far := farEnd sign wire
  if s.claimed.contains far then return ← s.takeHead wire
  let s ← match ← s.lanes.on far with
    | [] => throw .outOfRange
    | h :: _ =>
      if h.isHad then do
        let s ← s.takeHead far
        pure { s with claimed := far :: s.claimed }
      else pure s
  let lane ← s.lanes.on far
  let i ← positionOf (.cz far wire) lane
  if (lane.take i).any Gate.isHad then return ← s.takeHead wire
  let lanes : Lanes := PerWire.set s.lanes wire ((← s.lanes.on wire).drop 3)
  return { s with
    lanes := ← lanes.removeAt far i
    nots := .cnot far wire :: s.nots
    claimed := far :: s.claimed }

def Layer.visit (wire : Int) : Attempt Layer := do
  if s.claimed.contains wire then return s
  match ← s.lanes.on wire with
  | a :: b :: c :: _ =>
    if !a.isHad then return s
    let s := { s with claimed := wire :: s.claimed }
    if isSign b && c.isHad then s.takeNot wire b else s.takeHead wire
  | a :: _ =>
    if !a.isHad then return s
    { s with claimed := wire :: s.claimed }.takeHead wire
  | [] => return s

def takeLayer : Attempt Layer := l.wires.foldlM Layer.visit { lanes := l }

/-! ## Taking off a block -/

/-- A block being taken off; its gates are in order. -/
structure Taking where
  lanes : Lanes
  block : List Gate

def beforeHadamard (gs : List Gate) : List Gate := gs.takeWhile fun g => !g.isHad

def Taking.rotations (s : Taking) (wire : Int) : Attempt Taking := do
  let gs ← s.lanes.on wire
  let front := beforeHadamard gs
  return { lanes := PerWire.set s.lanes wire
             (front.filter (!·.isZRotation) ++ gs.drop front.length)
           block := s.block ++ (front.filter Gate.isZRotation).reverse }

def links (wires : List Int) : Attempt (List (Int × Int)) := do
  return (← wires.mapM fun w => do
    return ((beforeHadamard (← l.on w)).filter isSign).map fun g => (w, farEnd g w)).flatten

def Taking.signs : List (Int × Int) → List (Int × Int) → Taking → Attempt Taking
  | [], _, s => .ok s
  | (i, j) :: rest, open_, s => do
    if open_.contains (j, i) && open_.contains (i, j) then
      let g := Gate.cz i j
      let lanes ← s.lanes.remove i g
      let lanes ← lanes.remove j g
      let open_ := open_.erase (i, j)
      if !open_.contains (j, i) then throw .badValue
      Taking.signs rest (open_.erase (j, i)) { lanes := lanes, block := s.block ++ [g] }
    else Taking.signs rest open_ s

/-- A block with the controlled signs that are still within reach on one wire. -/
structure Moving where
  taking : Taking
  open_ : List (Int × Int)
  moved : Bool := false

/-- Moves controlled signs of a lane through the Hadamard at its head, as controlled nots. -/
def Moving.through (wire : Int) (blocked : List Int) : List Gate → Nat → List Nat → Moving → Attempt (Moving × List Nat)
  | [], _, gone, s => .ok (s, gone)
  | g :: rest, i, gone, s => do
    if isSign g then
      let far := farEnd g wire
      if blocked.contains far || !s.open_.contains (far, wire) then
        Moving.through wire blocked rest (i + 1) gone s
      else
        let lanes ← s.taking.lanes.remove far (.cz far wire)
        Moving.through wire blocked rest (i + 1) (i :: gone)
          { taking := { lanes := lanes, block := s.taking.block ++ [.cnot far wire] }
            open_ := s.open_.erase (far, wire)
            moved := true }
    else if g.isHad then return (s, gone)
    else Moving.through wire blocked rest (i + 1) gone s

def Moving.lane (blocked : List Int) (s : Moving) (wire : Int) : Attempt Moving := do
  let (s, gone) ← Moving.through wire blocked ((← s.taking.lanes.on wire).drop 1) 0 [] s
  let lanes ← gone.foldlM (fun l i => l.removeAt wire (i + 1)) s.taking.lanes
  return { s with taking := { s.taking with lanes := lanes } }

def Moving.cancel (s : Moving) (wire : Int) : Attempt Moving := do
  match ← s.taking.lanes.on wire with
  | a :: b :: rest =>
    if a.isHad && b.isHad then
      return { s with taking := { s.taking with lanes := PerWire.set s.taking.lanes wire rest }
                      moved := true }
    return s
  | _ => return s

/-- One round: takes rotations and controlled signs, then moves gates through Hadamards.  Tells whether any were
    moved. -/
def Taking.round (s : Taking) : Attempt (Taking × Bool) := do
  let wires := s.lanes.wires
  let open_ ← links s.lanes wires
  let s ← wires.foldlM Taking.rotations s
  let s ← Taking.signs open_ open_ s
  let heads ← wires.mapM fun w => do return (w, ← s.lanes.on w)
  let blocked := (heads.filter fun h => match h.2 with
    | g :: _ => g.isHad
    | [] => false).map (·.1)
  let open_ ← links s.lanes (wires.filter fun w => !blocked.contains w)
  let m ← blocked.foldlM (Moving.lane blocked) { taking := s, open_ := open_ }
  let m ← wires.foldlM Moving.cancel m
  return (m.taking, m.moved)

def Taking.rounds : Nat → Taking → Attempt Taking
  | 0, _ => .error .stepLimit
  | fuel + 1, s => do
    let (s, moved) ← s.round
    if moved then rounds fuel s else return s

/-! ## The partition -/

def partitionLanes (qubits : Nat) (anew verbose : Bool) : Nat → Lanes → Run (List (List Gate))
  | 0, _ => throw .stepLimit
  | fuel + 1, l => do
    if l.isEmpty then return []
    let layer ← takeLayer l
    let taking ← Taking.rounds (layer.lanes.load + 1)
      { lanes := layer.lanes, block := layer.nots.reverse }
    let block := taking.block
    let block ← if block.isEmpty then pure []
      else if anew then List.singleton <$> resynthesise block qubits verbose
      else pure [block]
    let rest ← partitionLanes qubits anew verbose fuel taking.lanes
    return (if layer.hadamards.isEmpty then [] else [layer.hadamards.reverse]) ++ block ++ rest

end PhaseBlock

namespace Circuit

def phaseBlocks (c : Circuit) (anew verbose : Bool) : Run (List (List Gate)) := do
  let l ← PhaseBlock.lanesOf c
  PhaseBlock.partitionLanes c.qubits.toNat anew verbose (l.load + 1) l

/-- The circuit of the phase blocks one after another, and the blocks. -/
def inPhaseBlocks (c : Circuit) (anew verbose : Bool) : Run (Circuit × List (List Gate)) := do
  let blocks ← c.phaseBlocks anew verbose
  return ({ qubits := c.qubits, gates := blocks.flatten }, blocks)

end Circuit

end ZXCircuits
