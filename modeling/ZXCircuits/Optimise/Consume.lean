/-
  Gates sorted by wires.

  The lane of a wire lists the gates on it; a gate on two wires stands in both lanes.  `Lanes.flatten` brings lanes back into one list:
  a gate on two wires leaves when it has been reached on both, where gates of one sort may pass one another.  `consume` takes gates
  that can be moved to the front, some of them through a Hadamard, where a controlled sign becomes a controlled not and the other way
  round.
-/
import ZXCircuits.Gate
import ZXCircuits.Table

namespace ZXCircuits

/-! ## Lists of marks -/

def toggle {α : Type} [BEq α] (xs : List α) (x : α) : List α :=
  if xs.contains x then xs.erase x else xs ++ [x]

def exchange {α : Type} [BEq α] (xs : List α) (a b : α) : List α :=
  if xs.contains a && !xs.contains b then xs.erase a ++ [b]
  else if xs.contains b && !xs.contains a then xs.erase b ++ [a]
  else xs

def takeOut (x : Int) (xs : List Int) : Attempt (List Int) :=
  if xs.contains x then .ok (xs.erase x) else .error .badValue

def insertBefore {α : Type} (n : Nat) (x : α) (xs : List α) : List α := xs.take (xs.length - n) ++ x :: xs.drop (xs.length - n)

def dropAt {α : Type} (xs : List α) (i : Nat) : Attempt (List α) :=
  if i < xs.length then .ok (xs.eraseIdx i) else .error .outOfRange

/-! ## Lanes -/

abbrev PerWire (α : Type) := Array α

namespace PerWire

variable {α : Type}

def get (a : PerWire α) (wire : Int) : Attempt α :=
  if wire < 0 then .error .absent else orAbsent a[wire.toNat]?

def set (a : PerWire α) (wire : Int) (x : α) : PerWire α := a.setIfInBounds wire.toNat x

end PerWire

/-- The sorts of gates on a wire: those that commute with rotations about the Z axis, or about the X axis. -/
inductive Axis where
  | z
  | x
  deriving DecidableEq, Repr, Inhabited

def Axis.other : Axis → Axis
  | z => x
  | x => z

abbrev Lanes := PerWire (List Gate)

namespace Lanes

def empty (qubits : Int) : Lanes := Array.replicate qubits.toNat []

variable (l : Lanes) (wire : Int) (g : Gate)

def on : Attempt (List Gate) := PerWire.get l wire

def push : Attempt Lanes := do
  return PerWire.set l wire ((← l.on wire) ++ [g])

def remove : Attempt Lanes := do
  return PerWire.set l wire (← g.removeFrom (← l.on wire))

def removeAt (i : Nat) : Attempt Lanes := do
  return PerWire.set l wire (← dropAt (← l.on wire) i)

def load : Nat := l.toList.flatten.length

def isEmpty (l : Lanes) : Bool := l.toList.all List.isEmpty

def wires : List Int := (List.range l.size).map Int.ofNat

end Lanes

namespace Gate

def isLinked (g : Gate) : Bool := g.isCz || g.isCnot

def onTarget (g : Gate) : Attempt Int :=
  match g.target? with
  | some t => .ok t
  | none => .error .unsupported

def onControl (g : Gate) : Attempt Int :=
  match g.control? with
  | some c => .ok c
  | none => .error .unsupported

end Gate

/-! ## Back to a list -/

namespace Lanes

/-- Lanes being emptied: the serial numbers of gates reached on one of their wires, and the gates that have
    left, the last one first. -/
structure Outflow where
  lanes : Lanes
  reached : List Nat
  out : List Gate

def Outflow.reach (s : Outflow) (g : Gate) : Outflow :=
  if s.reached.contains g.index then s else { s with reached := g.index :: s.reached }

/-- Lets gates of its sort pass a gate that waits at the head of a lane, with the positions of those that have left, the last one first. -/
def passWaiting (wire : Int) (isZ : Bool) : List Gate → Nat → List Nat → Outflow → Attempt (Outflow × List Nat)
  | [], _, gone, s => .ok (s, gone)
  | h :: rest, i, gone, s => do
    if if isZ then h.isZRotation else h.isXRotation then
      passWaiting wire isZ rest (i + 1) (i :: gone) { s with out := h :: s.out }
    else if !h.isLinked then return (s, gone)
    else if if isZ then h.isCz || h.control == wire else h.isCnot && h.target == wire then
      if s.reached.contains h.index then
        let lanes ← s.lanes.remove (h.otherWire wire) h
        passWaiting wire isZ rest (i + 1) (i :: gone)
          { lanes := lanes, reached := s.reached.erase h.index, out := h :: s.out }
      else passWaiting wire isZ rest (i + 1) gone (s.reach h)
    else return (s, gone)

def emptyLane (wire : Int) : Nat → Outflow → Attempt Outflow
  | 0, s => .ok s
  | fuel + 1, s => do
    match ← s.lanes.on wire with
    | [] => return s
    | g :: rest =>
      if !g.isLinked then
        emptyLane wire fuel { s with lanes := PerWire.set s.lanes wire rest, out := g :: s.out }
      else if s.reached.contains g.index then
        let lanes ← s.lanes.remove (g.otherWire wire) g
        match ← lanes.on wire with
        | [] => throw .outOfRange
        | h :: rest =>
          emptyLane wire fuel
            { lanes := PerWire.set lanes wire rest, reached := s.reached.erase g.index
              out := h :: s.out }
      else
        let isZ := g.isCz || g.control == wire
        let (s, gone) ← passWaiting wire isZ rest 0 [] (s.reach g)
        return { s with lanes := ← gone.foldlM (fun l i => l.removeAt wire (i + 1)) s.lanes }

def emptyOnce (l : Lanes) (out : List Gate) : Attempt Outflow :=
  l.wires.foldlM (fun s w => emptyLane w (s.lanes.load + 1) s) ⟨l, [], out⟩

def emptyAll : Nat → Lanes → List Gate → Attempt (List Gate)
  | 0, _, _ => .error .stepLimit
  | fuel + 1, l, out => do
    if l.isEmpty then return out.reverse
    let s ← emptyOnce l out
    emptyAll fuel s.lanes s.out

def flatten (l : Lanes) : Attempt (List Gate) := emptyAll (l.load + 1) l []

end Lanes

namespace Consume

def isZOn (g : Gate) (wire : Int) : Attempt Bool := do
  if g.isZRotation || g.isCz then return true
  return (← g.onControl) = wire

/-- What a look at the fronts of the lanes finds. -/
structure Front where
  /-- The first Hadamard of each lane that has one within reach. -/
  blocked : Table Int Gate := []
  /-- Gates that can be taken, in the order in which they were found. -/
  free : List Gate := []
  /-- Serial numbers of gates reached on one wire. -/
  reached : List Nat := []
  sorts : Table Int Axis := []

def Front.meet (f : Front) (g : Gate) : Front :=
  if f.reached.contains g.index then { f with free := f.free ++ [g] }
  else { f with reached := f.reached ++ [g.index] }

def lookAlong (wire : Int) (sort : Axis) : List Gate → Front → Attempt Front
  | [], f => .ok f
  | g :: rest, f => do
    if g.isHad then return { f with blocked := Table.insert f.blocked wire g }
    if g.isZRotation || g.isCz then
      if sort ≠ .z then return f
      lookAlong wire sort rest (if g.isCz then f.meet g else { f with free := f.free ++ [g] })
    else
      if sort = .z then
        if (← g.onTarget) = wire then return f
      else
        if (← g.onControl) = wire then return f
      lookAlong wire sort rest (f.meet g)

def lookAtFront (l : Lanes) : Attempt Front :=
  l.wires.foldlM (fun f wire => do
    match ← l.on wire with
    | [] => return f
    | g :: rest =>
      if g.isHad then return { f with blocked := Table.insert f.blocked wire g }
      let sort := if ← isZOn g wire then Axis.z else Axis.x
      let f := { f with sorts := Table.insert f.sorts wire sort }
      lookAlong wire sort (g :: rest) f) {}

def takeFree (l : Lanes) (gs : List Gate) : Attempt Lanes :=
  gs.foldlM (fun l g => do
    let l ← l.remove (← g.onTarget) g
    if g.isLinked then l.remove g.control g else return l) l

def after (g : Gate) : List Gate → Attempt (List Gate)
  | [] => .error .badValue
  | h :: rest => if h.same g then .ok rest else after g rest

/-- What stands behind the first Hadamards: two Hadamards in a row, or gates that may be moved through. -/
inductive Behind where
  | double (wire : Int) (first second : Gate)
  | candidates (gs : List Gate)

def lookBehind (wire : Int) (sort : Axis) : List Gate → List Nat → List Gate → Attempt (List Nat × List Gate)
  | [], reached, found => .ok (reached, found)
  | g :: rest, reached, found => do
    if g.isHad then return (reached, found)
    if g.isZRotation then
      if sort = .z then lookBehind wire sort rest reached found else return (reached, found)
    else
      let isZ ← isZOn g wire
      if isZ != (sort == .z) then return (reached, found)
      if reached.contains g.index then
        lookBehind wire sort rest reached (if g.isIn found then found else found ++ [g])
      else
        lookBehind wire sort rest (if g.isCnot then reached ++ [g.index] else reached) found

def lookBehindAll (l : Lanes) (sorts : Table Int Axis) : Table Int Gate → List Nat → List Gate → Attempt Behind
  | [], _, found => .ok (.candidates found)
  | (wire, had) :: rest, reached, found => do
    match ← after had (← l.on wire) with
    | [] => lookBehindAll l sorts rest reached found
    | g :: gs =>
      if g.isHad then return .double wire had g
      let right := if ← isZOn g wire then Axis.z else Axis.x
      let left := (Table.find? sorts wire).getD right.other
      if left = right then lookBehindAll l sorts rest reached found
      else
        let (reached, found) ← lookBehind wire right (g :: gs) reached found
        lookBehindAll l sorts rest reached found

variable (blocked : Table Int Gate)

def isBehind (wire : Int) (g : Gate) : Bool :=
  match Table.find? blocked wire with
  | some had => had.index < g.index
  | none => false

def movedThrough (g : Gate) : Run (Option Gate) := do
  let onTarget := isBehind blocked g.target g
  let onControl := isBehind blocked g.control g
  if g.isCz then
    let near := if onTarget then g.target else g.control
    let far := if g.control = near then g.target else g.control
    if isBehind blocked far g then
      Run.say (g.text ++ " " ++ toString g.index ++ "\n")
      throw .doublyBlocked
    return some { Gate.cnot far near with index := g.index }
  else if g.isCnot then
    if onTarget && onControl then return some { Gate.cnot g.target g.control with index := g.index }
    if onTarget then return some { Gate.cz g.control g.target with index := g.index }
    return none
  else return none

def moveAll (blocked : Table Int Gate) : List Gate → Lanes → List Gate → Run (Lanes × List Gate)
  | [], l, moved => pure (l, moved.reverse)
  | g :: rest, l, moved => do
    match ← movedThrough blocked g with
    | none => moveAll blocked rest l moved
    | some g' =>
      let l ← l.remove g.target g
      let l ← l.remove g.control g
      moveAll blocked rest l (g' :: moved)

def collect : Nat → Lanes → List Gate → Run (Lanes × List Gate)
  | 0, _, _ => throw .stepLimit
  | fuel + 1, l, block => do
    let f ← lookAtFront l
    if !f.free.isEmpty then collect fuel (← takeFree l f.free) (block ++ f.free)
    else
      match ← lookBehindAll l f.sorts f.blocked f.reached [] with
      | .double wire a b =>
        let l ← l.remove wire a
        collect fuel (← l.remove wire b) block
      | .candidates gs =>
        let (l, moved) ← moveAll f.blocked gs l []
        if moved.isEmpty then return (l, block)
        collect fuel l (block ++ moved)

def takeHadamards (l : Lanes) : Lanes × List Gate :=
  (l.map fun gs => match gs with
    | g :: rest => if g.isHad then rest else gs
    | [] => [],
   l.toList.filterMap fun gs => match gs with
    | g :: _ => if g.isHad then some g else none
    | [] => none)

end Consume

/-- Takes a block of gates without Hadamards, then the Hadamards at the heads of the lanes. -/
def consume (l : Lanes) : Run (Lanes × List Gate × List Gate) := do
  let (l, block) ← Consume.collect (l.load + 1) l []
  let (l, hadamards) := Consume.takeHadamards l
  return (l, block, hadamards)

end ZXCircuits
