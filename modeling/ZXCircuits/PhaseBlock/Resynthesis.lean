/-
  Making a phase block anew.

  A block is read as a phase polynomial and a linear map of the wires.  `resynthesise` makes it of controlled nots, with a rotation
  wherever its parity is on a wire, and controlled signs where they do most.
-/
import ZXCircuits.Todd.Gates
import ZXCircuits.Optimise.Consume

namespace ZXCircuits.PhaseBlock

/-- A term of a phase polynomial: a parity, its wires in the order in which they came in, or a product of
    two wires. -/
inductive Term where
  | parity (wires : List Nat)
  | product (a b : Nat)
  deriving DecidableEq, Repr

/-- A phase polynomial with phases modulo a full turn, and for every wire the parity on it. -/
structure Reading where
  phases : Table Term Rat := []
  wires : Array (List Nat)

namespace Reading

def start (qubits : Nat) : Reading := { wires := (Array.range qubits).map fun i => [i] }

variable (r : Reading)

def addTerm (t : Term) (phase : Rat) : Reading :=
  let value := Rat.modTwo phase
  if value = 0 then r
  else
    let sum := match Table.find? r.phases t with
      | some old => Rat.modTwo (old + value)
      | none => value
    { r with phases := if sum = 0 then Table.erase r.phases t else Table.insert r.phases t sum }

def parityOn (wire : Int) : Attempt (Nat × List Nat) := do
  let i ← wrapIndex r.wires.size wire
  return (i, ← orOutOfRange r.wires[i]?)

def productOf (a b : Nat) : Term :=
  if a = b then .parity [a] else .product (min a b) (max a b)

def productTerms (a b : List Nat) : List Term := b.foldl (fun ts y => a.foldl (fun ts x => toggle ts (productOf x y)) ts) []

def feed (g : Gate) : Attempt Reading := do
  match g.op with
  | .rotation k t p =>
    if !k.isZ then return r
    let (_, a) ← r.parityOn t
    return r.addTerm (.parity a) p
  | .pair .cnot c t =>
    let (i, a) ← r.parityOn t
    let (j, b) ← r.parityOn c
    if i = j then throw .interrupted
    return { r with wires := r.wires.setIfInBounds i (b.foldl toggle a) }
  | .pair _ c t =>
    let (_, a) ← r.parityOn t
    let (_, b) ← r.parityOn c
    return (productTerms a b).foldl (fun r t => r.addTerm t 1) r
  | _ => return r

def ofGates (gates : List Gate) (qubits : Nat) : Attempt Reading := gates.foldlM feed (start qubits)

def bits (qubits : Nat) (wires : List Nat) : List Int := (List.range qubits).map fun i => if wires.contains i then 1 else 0

def singles : Attempt (List (Nat × Rat)) :=
  (r.phases.filter fun t => match t.1 with
    | .parity [] | .parity [_] => true
    | _ => false).mapM fun t => match t.1 with
    | .parity [w] => pure (w, t.2)
    | _ => throw Failure.badValue

def parities : List (List Int × Rat) :=
  r.phases.filterMap fun t => match t.1 with
    | .parity (a :: b :: ws) => some (bits r.wires.size (a :: b :: ws), t.2)
    | _ => none

def signs : List (Nat × Nat) :=
  r.phases.filterMap fun t => match t.1 with
    | .product a b => some (a, b)
    | _ => none

def linearMap : BitMatrix := .ofRows (r.wires.toList.map (bits r.wires.size))

end Reading

/-! ## Places for rotations and signs -/

/-- A place for a controlled sign: the number of controlled nots before it, its wires, and the products it
    makes. -/
structure Site where
  time : Nat
  first : Nat
  second : Nat
  products : List (Nat × Nat)

def pairs (qubits : Nat) : List (Nat × Nat) := (List.range qubits).flatMap fun a => ((List.range qubits).filter (a < ·)).map fun b => (a, b)

def rowProducts (qubits : Nat) (a b : List Int) : Option (List (Nat × Nat)) :=
  let on (r : List Int) : List Nat := (List.range qubits).filter fun i => r.getD i 0 != 0
  let xs := on a
  let ys := on b
  if xs.any ys.contains then none
  else
    let all := xs.flatMap fun x => ys.map fun y => (min x y, max x y)
    some ((all.mergeSort fun p q => p.1 < q.1 || (p.1 == q.1 && p.2 ≤ q.2)).eraseDups)

/-- The sites after the controlled nots so far; `seen` holds the products of the sites after the first
    controlled not. -/
def sitesAt (qubits time : Nat) (rows : List (List Int)) (seen : List (List (Nat × Nat))) : List Site :=
  let step (acc : List Site × List (List (Nat × Nat))) (p : Nat × Nat) :=
    match rowProducts qubits (rows.getD p.1 []) (rows.getD p.2 []) with
    | none => acc
    | some products =>
      if acc.2.contains products then acc
      else (⟨time, p.1, p.2, products⟩ :: acc.1, products :: acc.2)
  ((pairs qubits).foldl step ([], seen)).1.reverse

/-- A rotation placed after a number of controlled nots. -/
structure Placed where
  time : Nat
  wire : Nat
  phase : Rat

def placeOne (time : Nat) (rows : List (List Int)) (parities : List (List Int × Rat))
    (placed : List Placed) : List (List Int × Rat) × List Placed :=
  match parities.find? fun p => rows.contains p.1 with
  | some p => (parities.erase p, ⟨time, rows.idxOf p.1, p.2⟩ :: placed)
  | none => (parities, placed)

/-- Finds places: for rotations the first time that their parity is on a wire, at most one after every controlled not. -/
def findPlaces (qubits : Nat) : List (Int × Int) → Nat → BitMatrix → List (List Int × Rat) →
    List Placed → List Site → Attempt (List Placed × List Site)
  | [], _, _, _, placed, sites => .ok (placed.reverse, sites)
  | (c, t) :: rest, time, m, parities, placed, sites => do
    let m ← m.rowAdd c t
    let rows := m.toRows
    let (parities, placed) := placeOne (time + 1) rows parities placed
    let seen := (sites.filter fun (s : Site) => 0 < s.time).map Site.products
    findPlaces qubits rest (time + 1) m parities placed
      (sites ++ sitesAt qubits (time + 1) rows seen)

def pairDifference (a b : List (Nat × Nat)) : List (Nat × Nat) := (a.filter fun p => !b.contains p) ++ b.filter fun p => !a.contains p

def bestSite (signs : List (Nat × Nat)) (sites : List Site) : Option Site :=
  (sites.foldl (fun (best : Nat × Option Site) s =>
    let score := (pairDifference signs s.products).length
    if score < best.1 then (score, some s) else best) (signs.length, none)).2

def chooseSites (sites : List Site) : Nat → List (Nat × Nat) → Attempt (List Site)
  | 0, signs => if signs.isEmpty then .ok [] else .error .stepLimit
  | fuel + 1, signs =>
    if signs.isEmpty then .ok []
    else
      match bestSite signs sites with
      | none => .error .absent
      | some s => do
        return s :: (← chooseSites sites fuel (pairDifference signs s.products))

def weave (placed : List Placed) (signs : List Site) : List Gate → Nat → List Gate
  | [], _ => []
  | g :: rest, time =>
    g :: (placed.filter (·.time = time + 1)).map (fun p => Gate.zPhase p.wire p.phase)
      ++ (signs.filter (·.time = time + 1)).map (fun s => Gate.cz s.first s.second)
      ++ weave placed signs rest (time + 1)

def resynthesise (block : List Gate) (qubits : Nat) (verbose : Bool) : Run (List Gate) := do
  let r ← Reading.ofGates block qubits
  let singles ← r.singles
  let parities := r.parities
  let network ← networkFor qubits (parities.map (·.1)) r.linearMap
  let old := block.filter Gate.isCnot
  let fewer := network.length < old.length
  let nots := if fewer then network.map fun (c, t) => Gate.cnot c t else old
  Run.sayIf (verbose && fewer)
    s!"Optimized cnot count: {old.length} -> {network.length} \n"
  let first := (pairs qubits).map fun p => (⟨0, p.1, p.2, [p]⟩ : Site)
  let (placed, sites) ← findPlaces qubits (nots.map fun g => (g.control, g.target)) 0
    (.identity qubits) parities [] first
  let signs ← chooseSites sites r.signs.length r.signs
  let oldSigns := block.countP Gate.isCzLike
  Run.sayIf (verbose && oldSigns != 0)
    s!"Old cz count:  {oldSigns} . New cz count:  {signs.length}\n"
  return singles.map (fun (w, p) => Gate.zPhase w p)
    ++ (signs.filter (·.time = 0)).map (fun s => Gate.cz s.first s.second)
    ++ weave placed signs nots 0

end ZXCircuits.PhaseBlock
