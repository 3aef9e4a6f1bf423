/-
  Third-order duplicate and destroy on blocks of gates.

  A block is a phase polynomial followed by a linear map (`PhaseForm`); `reduceBlock` reduces its parities and makes gates of the
  result.
-/
import ZXCircuits.Todd.Iterate
import ZXCircuits.Polynomial.Parity
import ZXCircuits.Polynomial.Multilinear
import ZXCircuits.ParityNetwork

namespace ZXCircuits

/-- A phase polynomial, and for every wire the parity that is on it at the end. -/
structure PhaseForm where
  phases : ParitySum := []
  wires : Array (List Nat)

namespace PhaseForm

def start (qubits : Nat) : PhaseForm := { wires := (Array.range qubits).map fun i => [i] }

variable (f : PhaseForm)

def parityOn (wire : Int) : Attempt (Nat × List Nat) := do
  let i ← wrapIndex f.wires.size wire
  return (i, ← orOutOfRange f.wires[i]?)

def addTerm (f : PhaseForm) (parity : List Nat) (value : Int) : PhaseForm :=
  { f with phases := f.phases.addTerm (parity.map Int.ofNat) value }

def feed (g : Gate) : Attempt PhaseForm := do
  match g.op with
  | .rotation k t p =>
    if !k.isZ then throw (g.refusal .unknownGateType)
    let (_, a) ← f.parityOn t
    return f.addTerm a (Int.tdiv (p * 4).num (p * 4).den)
  | .pair .cnot c t =>
    let (i, a) ← f.parityOn t
    let (_, b) ← f.parityOn c
    return { f with wires := f.wires.setIfInBounds i (symmDiff a b) }
  | .pair _ c t =>
    let (_, a) ← f.parityOn t
    let (_, b) ← f.parityOn c
    return ((f.addTerm a 2).addTerm b 2).addTerm (symmDiff a b) 6
  | _ => throw (g.refusal .unknownGateType)

def ofGates (gates : List Gate) (qubits : Nat) : Attempt PhaseForm := gates.foldlM feed (start qubits)

def linearMap : BitMatrix :=
  .ofRows (f.wires.toList.map fun a =>
    (List.range f.wires.size).map fun i => if a.contains i then 1 else 0)

def wireTexts : List String := f.wires.toList.map fun a => ParitySum.parityText (a.map Int.ofNat)

end PhaseForm

def mapOfNots (qubits : Nat) (gates : List (Int × Int)) : Attempt BitMatrix :=
  gates.foldlM (fun m g => m.rowAdd g.1 g.2) (BitMatrix.identity qubits)

/-- Controlled nots that bring every parity of a list onto some wire and end with a given map of the wires. -/
def networkFor (qubits : Nat) (parities : List (List Int)) (target : BitMatrix) : Attempt (List (Int × Int)) := do
  let network := (← parityNetwork qubits parities).map fun (c, t) => ((c : Int), (t : Int))
  let m ← mapOfNots qubits network
  let inverse ← match ← m.inverse with
    | some i => pure i
    | none => throw .unsupported
  let rest ← (← target.mul inverse).synthesis true
  return network ++ rest.reverse.map fun (c, t) => ((t : Int), (c : Int))

namespace Todd

/-- Places a rotation by an eighth when its parity is first on a wire, at most one after every controlled not, with the parities
    left over. -/
def placeParities : List (Int × Int) → BitMatrix → List (List Int) → Attempt (List Gate × List (List Int))
  | [], _, parities => .ok ([], parities)
  | (c, t) :: rest, m, parities => do
    let m ← m.rowAdd c t
    let rows := m.toRows
    match parities.find? rows.contains with
    | some par =>
      let (gates, left) ← placeParities rest m (parities.erase par)
      return (.cnot c t :: .t (rows.idxOf par) false :: gates, left)
    | none =>
      let (gates, left) ← placeParities rest m parities
      return (.cnot c t :: gates, left)

def firstSet (col : List Int) : Attempt Nat :=
  match col.findIdx? (· != 0) with
  | some i => .ok i
  | none => .error .exhausted

/-- Gates for a form whose parities have been reduced to the columns of a matrix. -/
def rebuildBlock (form : PhaseForm) (qubits : Nat) (m' : BitMatrix) : Attempt (List Gate) := do
  let cols := m'.transpose.toRows
  let singles ← (cols.filter fun c => BitMatrix.total c == 1).mapM firstSet
  let parities := cols.filter fun c => BitMatrix.total c != 1
  let rest := (({} : Multilinear).addMatrix (form.phases.matrix qubits) false).addMatrix m' true
  let cliffords ← rest.toClifford
  let nots ← networkFor qubits parities form.linearMap
  let (placed, left) ← placeParities nots (.identity qubits) parities
  if !left.isEmpty then throw .phasesLeft
  return singles.map (fun (i : Nat) => Gate.t i false) ++ cliffords ++ placed

def reduceBlockWith {σ : Type} (reducer : BitMatrix → Bool → RandomRun σ BitMatrix) (gates : List Gate) (qubits : Nat)
    (verbose : Bool) : RandomRun σ (List Gate) := do
  let form ← RandomRun.ofExcept (PhaseForm.ofGates gates qubits)
  let m' ← reducer (form.phases.matrix qubits) verbose
  RandomRun.ofExcept (rebuildBlock form qubits m')

def reduceBlock {σ : Type} [Random.Source σ] : List Gate → Nat → Bool → RandomRun σ (List Gate) := reduceBlockWith iterate

end Todd

end ZXCircuits
