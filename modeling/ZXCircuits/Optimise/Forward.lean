/-
  A forward pass over the gates of a circuit.

  Hadamards, `NOT` and `Z` gates are carried along as marks until some gate cannot pass them, and so are exchanges of wires.  Other
  gates are laid down in lanes, fused with or cancelled against one of the gates at the end of a lane that commute with one another
  (`available`).
-/
import ZXCircuits.Optimise.Consume
import ZXCircuits.Circuit.Basic
import ZXCircuits.Permutation

namespace ZXCircuits

structure Pass where
  lanes : Lanes
  available : Lanes
  axes : PerWire Axis
  /-- Marks, in the order in which they came in. -/
  hadamards : List Int := []
  nots : List Int := []
  zs : List Int := []
  /-- For each wire the one whose content it holds. -/
  permutation : Table Int Int
  /-- The serial number of the next gate. -/
  count : Nat := 0
  /-- Whether controlled signs are merged with controlled nots. -/
  mergeSigns : Bool

namespace Pass

def start (qubits : Int) (mergeSigns : Bool) : Pass :=
  { lanes := .empty qubits
    available := .empty qubits
    axes := Array.replicate qubits.toNat .z
    permutation := Permutation.identity qubits.toNat
    mergeSigns := mergeSigns }

variable (p : Pass) (wire : Int) (g : Gate)

def number : Gate × Pass := ({ g with index := p.count }, { p with count := p.count + 1 })

def lay : Attempt Pass := do
  return { p with lanes := ← p.lanes.push wire g }

def offer : Attempt Pass := do
  return { p with available := ← p.available.push wire g }

def lift : Attempt Pass := do
  return { p with lanes := ← p.lanes.remove wire g }

def withdraw : Attempt Pass := do
  return { p with available := ← p.available.remove wire g }

def restart (a : Axis) : Pass :=
  { p with available := PerWire.set p.available wire [], axes := PerWire.set p.axes wire a }

def restartIf (old new : Axis) : Attempt Pass := do
  if (← PerWire.get p.axes wire) = old then return p.restart wire new
  return p

def layHadamard : Attempt Pass := do
  let (h, p) := p.number (.had wire)
  let p ← p.lay wire h
  return { p with hadamards := ← takeOut wire p.hadamards }.restart wire .z

def layPending : Attempt Pass :=
  if p.hadamards.contains wire then p.layHadamard wire else .ok p

def laySingle : Attempt Pass := do
  let (g, p) := p.number g
  (← p.lay wire g).offer wire g

def layPair (a b : Int) (g : Gate) : Attempt Pass := do
  let (g, p) := p.number g
  let p ← p.lay a g
  let p ← p.lay b g
  let p ← p.offer a g
  p.offer b g

def liftPair (a b : Int) (g : Gate) : Attempt Pass := do
  let p ← p.withdraw a g
  let p ← p.lift a g
  let p ← p.withdraw b g
  p.lift b g

/-! ## Controlled signs -/

def meets (g : Gate) (target : Int) : List Gate → Bool
  | [] => false
  | h :: rest =>
    if !h.isCnot || h.target != target then false
    else h.same g || meets g target rest

/-- Whether only available gates and other controlled nots on its target stand between a controlled not and a sign after it. -/
def reachable (target : Int) (g : Gate) : Attempt Bool := do
  let open_ ← p.available.on target
  if (← PerWire.get p.axes target) = .x then return g.isIn open_
  let lane ← p.lanes.on target
  if open_.isEmpty then return false
  return meets g target (lane.take (lane.length - open_.length)).reverse

def partner (control target : Int) : Attempt (Option Gate) := do
  let candidates := (← p.available.on control).filter fun g =>
    g.isCnot && g.control == control && g.target == target
  candidates.findM? fun g => p.reachable target g

/-- Merges a sign with a controlled not before the available gates of its target: an inverse `S` before it, an `S` on either wire. -/
def mergeBefore (c t : Int) (g : Gate) : Attempt Pass := do
  let p ← p.lift t g
  let p ← p.lift c g
  let p ← p.withdraw c g
  let (before, p) := p.number (.s t true)
  let open_ ← p.available.on t
  let lane ← p.lanes.on t
  let lane := insertBefore open_.length g (insertBefore open_.length before lane)
  let p := { p with lanes := PerWire.set p.lanes t lane }
  let p ← p.laySingle t (.s t false)
  let (after, p) := p.number (.s c false)
  let p ← p.offer c g
  let p ← p.offer c after
  let p ← p.lay c g
  p.lay c after

/-- A controlled not followed by a sign on the same wires is an inverse `S` on the target, the controlled not,
    and an `S` on either wire. -/
def mergeSign : Attempt Pass := do
  let p := if (← PerWire.get p.axes g.target) = .x then
      { p with available := PerWire.set p.available g.target [] }
    else p
  p.mergeBefore g.control g.target g

def layOrCancelSign : Attempt Pass := do
  let a := g.control
  let b := g.target
  let p ← p.restartIf a .x .z
  let p ← p.restartIf b .x .z
  let equal := (← p.available.on a).reverse.find? fun h => h.isCz && h.control == a && h.target == b
  match equal with
  | some h =>
    if h.isIn (← p.available.on b) then p.liftPair a b h else p.layPair a b g
  | none => p.layPair a b g

def addSign : Attempt Pass := do
  if p.mergeSigns then
    if let some h ← p.partner g.control g.target then return ← p.mergeSign h
    if let some h ← p.partner g.target g.control then return ← p.mergeSign h
  p.layOrCancelSign g

/-! ## Controlled nots -/

/-- Two opposite controlled nots are the second one and an exchange of the wires. -/
def turnAround (h g : Gate) : Attempt Pass := do
  let c := g.control
  let t := g.target
  let p ← p.lift c h
  let p ← p.lift t h
  let p := { p with axes := PerWire.set (PerWire.set p.axes c .z) t .x }
  let (g, p) := p.number g
  let p ← p.lay c g
  let p ← p.lay t g
  let a ← orAbsent (Table.find? p.permutation c)
  let b ← orAbsent (Table.find? p.permutation t)
  return { p with
    available := PerWire.set (PerWire.set p.available c [g]) t [g]
    permutation := Table.insert (Table.insert p.permutation c b) t a
    hadamards := exchange p.hadamards t c
    nots := exchange p.nots t c
    zs := exchange p.zs t c }

def layOrCancelNot : Attempt Pass := do
  let c := g.control
  let t := g.target
  let p ← p.restartIf c .x .z
  let p ← p.restartIf t .z .x
  let equal := (← p.available.on c).reverse.find? fun h => h.isCnot && h.control == c && h.target == t
  match equal with
  | some h =>
    if h.isIn (← p.available.on t) then p.liftPair c t h else p.layPair c t g
  | none => p.layPair c t g

def addNot : Attempt Pass := do
  let c := g.control
  let t := g.target
  if (← PerWire.get p.axes c) = .x && (← PerWire.get p.axes t) = .z then
    let opposite := (← p.available.on c).reverse.find? fun h =>
      h.isCnot && h.control == t && h.target == c
    if let some h := opposite then
      if h.isIn (← p.available.on t) then return ← p.turnAround h g
  p.layOrCancelNot g

/-! ## Taking in gates -/

def current : Attempt Int :=
  match List.find? (fun kv => kv.2 == wire) p.permutation with
  | some (i, _) => .ok i
  | none => .error .exhausted

def withPhase (k : Rotation) (wire : Int) (phase : Rat) (index : Nat) : Gate := { op := .rotation k wire phase, index := index }

def exchangeMarks (t : Int) : Pass :=
  let isNot := p.nots.contains t
  let isZ := p.zs.contains t
  if isNot && !isZ then { p with nots := p.nots.erase t, zs := p.zs ++ [t] }
  else if isZ && !isNot then { p with zs := p.zs.erase t, nots := p.nots ++ [t] }
  else p

def turnedName (k : Rotation) (turned : Rat) : Rotation :=
  match k with
  | .s a => .s (a || 1 < turned.num)
  | k => k

/-- Replaces the quarter turn `last` at the end of a lane, behind a Hadamard, by opposite ones on either side. -/
def turnHadamard (t : Int) (last : Gate) (k : Rotation) (w : Int) (phase : Rat) : Attempt Pass := do
  let turned := Rat.modTwo (-phase)
  let (z, p) := p.number (.zPhase t turned)
  let last' := withPhase (turnedName k turned) w turned last.index
  let replace (g : Gate) : Gate := if g.index == last.index then last' else g
  let lane := (← p.lanes.on t).map replace
  let open_ := (← p.available.on t).map replace
  return { p with
    lanes := PerWire.set p.lanes t (insertBefore 2 z lane)
    available := PerWire.set p.available t open_ }

def carryHadamard (t : Int) : Attempt Pass := do
  let toggled := { p with hadamards := toggle p.hadamards t }
  match (← p.lanes.on t).reverse with
  | last :: h :: _ =>
    if !h.isHad then return toggled
    match last.op with
    | .rotation k w phase =>
      if !k.isZ || phase.den ≠ 2 then return toggled
      p.turnHadamard t last k w phase
    | _ => return toggled
  | _ => return toggled

/-- Takes in a Hadamard.  A mark changes its sort; after a Hadamard and a quarter turn it is that Hadamard between opposite
    quarter turns; else it is carried along. -/
def feedHadamard (t : Int) : Attempt Pass := (p.exchangeMarks t).carryHadamard t

def fuseRotation (t : Int) (g : Gate) (phase : Rat) : Attempt Pass := do
  let open_ ← p.available.on t
  if (← PerWire.get p.axes t) = .x then return ← (p.restart t .z).laySingle t g
  match open_.find? Gate.isZRotation with
  | none => p.laySingle t g
  | some h =>
    let p ← p.withdraw t h
    let p ← p.lift t h
    let sum := Rat.modTwo (phase + h.phase)
    if sum = 1 then return { p with zs := toggle p.zs t }
    if sum = 0 then return p
    p.laySingle t (.zPhase t sum)

def markedName (k : Rotation) (phase : Rat) : Rotation :=
  match k with
  | .s _ => .s (phase.num != 1)
  | k => k

/-- Takes in a rotation about the Z axis that no `Z` mark stands before.  It is turned round by a `NOT` mark; half a turn
    becomes a mark. -/
def feedUnmarked (k : Rotation) (t : Int) (phase : Rat) (index : Nat) : Attempt Pass := do
  if phase = 0 then return p
  let phase := if p.nots.contains t then Rat.modTwo (-phase) else phase
  if phase = 1 then return { p with zs := toggle p.zs t }
  let p ← p.layPending t
  p.fuseRotation t (withPhase (markedName k phase) t phase index) phase

def feedRotation (k : Rotation) (t : Int) (phase : Rat) (index : Nat) : Attempt Pass :=
  if p.zs.contains t then
    { p with zs := p.zs.erase t }.feedUnmarked k t (Rat.modTwo (phase + 1)) index
  else p.feedUnmarked k t phase index

def markSign (a b : Int) : Pass :=
  let zs := if p.nots.contains a then toggle p.zs b else p.zs
  { p with zs := if p.nots.contains b then toggle zs a else zs }

/-- Takes a controlled sign past the Hadamards carried along, which make it a controlled not if there is one on
    one wire. -/
def placeSign (a b : Int) : Attempt Pass :=
  match p.hadamards.contains a, p.hadamards.contains b with
  | true, true => do
    let p ← p.layHadamard a
    let p ← p.layHadamard b
    p.addSign (.cz (min a b) (max a b))
  | true, false => p.addNot (.cnot b a)
  | false, true => p.addNot (.cnot a b)
  | false, false => p.addSign (.cz (min a b) (max a b))

def feedSign (a b : Int) : Attempt Pass := (p.markSign a b).placeSign a b

def markNot (c t : Int) : Pass :=
  { p with
    nots := if p.nots.contains c then toggle p.nots t else p.nots
    zs := if p.zs.contains t then toggle p.zs c else p.zs }

/-- Takes a controlled not past the Hadamards carried along: those on both wires turn it round, and one on
    the target makes it a controlled sign. -/
def placeNot (c t : Int) : Attempt Pass :=
  match p.hadamards.contains c, p.hadamards.contains t with
  | true, true => p.addNot (.cnot t c)
  | false, false => p.addNot (.cnot c t)
  | false, true => p.addSign (.cz (min c t) (max c t))
  | true, false => do
    let p ← p.layHadamard c
    p.addNot (.cnot c t)

def feedNot (c t : Int) : Attempt Pass := (p.markNot c t).placeNot c t

def feed : Attempt Pass := do
  match g.op with
  | .had t => p.feedHadamard (← p.current t)
  | .rotation .not t _ => return { p with nots := toggle p.nots (← p.current t) }
  | .rotation k t phase =>
    let t ← p.current t
    if k.isZ then p.feedRotation k t phase g.index
    else throw (.unknownGate { g with op := .rotation k t phase }.text)
  | .pair k c t =>
    let t ← p.current t
    match k with
    | .cz => p.feedSign (← p.current c) t
    | .cnot => p.feedNot (← p.current c) t
    | _ => throw (.unknownGate { g with op := .pair k c t }.text)
  | .triple k a b t =>
    let t ← p.current t
    throw (.unknownGate { g with op := .triple k a b t }.text)
  | .parity _ _ => throw (if p.permutation.isEmpty then .exhausted else .unsupported)
  | .initAncilla _ | .postSelect _ => throw .unsupported

def finish : Attempt Pass := do
  let p ← p.hadamards.foldlM layHadamard p
  p.zs.foldlM (fun p t => do
    let (z, p) := p.number (.z t)
    p.lay t z) p

def leftOver : Attempt (List Gate) := do
  let swaps ← Permutation.swapsOf p.permutation
  return p.nots.map Gate.not ++ swaps.map fun (a, b) => Gate.swap a b

end Pass

def forward (c : Circuit) (mergeSigns : Bool) : Attempt (Circuit × List Gate) := do
  let p ← c.gates.foldlM Pass.feed (Pass.start c.qubits mergeSigns)
  let p ← p.finish
  let gates ← p.lanes.flatten
  return ({ qubits := c.qubits, gates := gates }, ← p.leftOver)

end ZXCircuits
