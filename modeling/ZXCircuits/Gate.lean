/-
  Quantum gates.

  A gate is an operation on numbered wires with a serial number, which tells apart gates that are otherwise equal.  Rotations keep
  their phase, in half turns, beside their name.
-/
import ZXCircuits.Number.Coord
import ZXCircuits.BitMatrix.Basic

namespace ZXCircuits

/-- Names of rotations about an axis; `s` and `t` carry the flag of the inverse rotation. -/
inductive Rotation where
  | zPhase
  | z
  | s (adjoint : Bool)
  | t (adjoint : Bool)
  | xPhase
  | not
  deriving DecidableEq, Repr

/-- Names of gates on two wires.  `cx` is the controlled sign with a Hadamard on either side of
    both wires. -/
inductive PairGate where
  | cnot
  | cz
  | cx
  | swap
  deriving DecidableEq, Repr

inductive TripleGate where
  | tof
  | ccz
  deriving DecidableEq, Repr

inductive Operation where
  | had (target : Int)
  | rotation (kind : Rotation) (target : Int) (phase : Rat)
  | pair (kind : PairGate) (control target : Int)
  | triple (kind : TripleGate) (first second target : Int)
  | parity (phase : Rat) (targets : List Int)
  | initAncilla (label : Int)
  | postSelect (label : Int)
  deriving DecidableEq, Repr

structure Gate where
  op : Operation
  index : Nat := 0
  deriving DecidableEq, Repr

instance : Inhabited Gate := ⟨{ op := .had 0 }⟩

namespace Rotation

def isZ : Rotation → Bool
  | zPhase | z | s _ | t _ => true
  | xPhase | not => false

def name : Rotation → String
  | zPhase => "ZPhase"
  | z => "Z"
  | s _ => "S"
  | t _ => "T"
  | xPhase => "XPhase"
  | not => "NOT"

def adjoint : Rotation → Bool
  | s a | t a => a
  | _ => false

def showsPhase : Rotation → Bool
  | zPhase | xPhase => true
  | _ => false

def inverse : Rotation → Rotation
  | s a => s (!a)
  | t a => t (!a)
  | k => k

end Rotation

namespace PairGate

def name : PairGate → String
  | cnot => "CNOT"
  | cz => "CZ"
  | cx => "CX"
  | swap => "SWAP"

end PairGate

namespace TripleGate

def name : TripleGate → String
  | tof => "Tof"
  | ccz => "CCZ"

end TripleGate

namespace Gate

/-! ## Making gates -/

def had (target : Int) : Gate := { op := .had target }

def zPhase (target : Int) (phase : Rat) : Gate := { op := .rotation .zPhase target phase }

def xPhase (target : Int) (phase : Rat) : Gate := { op := .rotation .xPhase target phase }

def z (target : Int) : Gate := { op := .rotation .z target 1 }

def not (target : Int) : Gate := { op := .rotation .not target 1 }

def s (target : Int) (adjoint : Bool) : Gate := { op := .rotation (.s adjoint) target (if adjoint then -1 / 2 else 1 / 2) }

def t (target : Int) (adjoint : Bool) : Gate := { op := .rotation (.t adjoint) target (if adjoint then -1 / 4 else 1 / 4) }

def cnot (control target : Int) : Gate := { op := .pair .cnot control target }

def cz (control target : Int) : Gate := { op := .pair .cz control target }

def cx (control target : Int) : Gate := { op := .pair .cx control target }

def swap (control target : Int) : Gate := { op := .pair .swap control target }

def tof (first second target : Int) : Gate := { op := .triple .tof first second target }

def ccz (first second target : Int) : Gate := { op := .triple .ccz first second target }

def parity (phase : Rat) (targets : List Int) : Gate := { op := .parity phase targets }

def initAncilla (label : Int) : Gate := { op := .initAncilla label }

def postSelect (label : Int) : Gate := { op := .postSelect label }

def single (name : String) (wire : Int) : Attempt Gate :=
  match name with
  | "HAD" => .ok (had wire)
  | "NOT" => .ok (not wire)
  | "Z" => .ok (z wire)
  | "S" => .ok (s wire false)
  | "T" => .ok (t wire false)
  | "XPhase" => .ok (xPhase wire 0)
  | "ParityPhase" => .ok (parity wire [])
  | "InitAncilla" => .ok (initAncilla wire)
  | "PostSelect" => .ok (postSelect wire)
  | "ZPhase" | "CNOT" | "CZ" | "CX" | "SWAP" | "TOF" | "CCZ" => .error .misapplied
  | _ => .error .absent

/-! ## Looking at gates -/

def name (g : Gate) : String :=
  match g.op with
  | .had _ => "HAD"
  | .rotation k _ _ => k.name
  | .pair k _ _ => k.name
  | .triple k _ _ _ => k.name
  | .parity _ _ => "ParityPhase"
  | .initAncilla _ => "InitAncilla"
  | .postSelect _ => "PostSelect"

variable (g : Gate) (mask : List Int) (wire : Int)

def isHad : Bool :=
  match g.op with
  | .had _ => true
  | _ => false

def isZRotation : Bool :=
  match g.op with
  | .rotation k _ _ => k.isZ
  | _ => false

def isXRotation : Bool :=
  match g.op with
  | .rotation k _ _ => !k.isZ
  | _ => false

def isCnot : Bool :=
  match g.op with
  | .pair .cnot _ _ => true
  | _ => false

def isCz : Bool :=
  match g.op with
  | .pair .cz _ _ => true
  | _ => false

/-- Whether the gate is a controlled sign or one of its relatives that are symmetric in their two
    wires. -/
def isCzLike : Bool :=
  match g.op with
  | .pair k _ _ => k != .cnot
  | _ => false

def isAncilla : Bool :=
  match g.op with
  | .initAncilla _ | .postSelect _ => true
  | _ => false

def target? : Option Int :=
  match g.op with
  | .had t | .rotation _ t _ | .pair _ _ t | .triple _ _ _ t => some t
  | _ => none

def control? : Option Int :=
  match g.op with
  | .pair _ c _ => some c
  | _ => none

def phase? : Option Rat :=
  match g.op with
  | .rotation _ _ p | .parity p _ => some p
  | _ => none

def target (g : Gate) : Int := g.target?.getD 0

def control (g : Gate) : Int := g.control?.getD 0

def phase (g : Gate) : Rat := g.phase?.getD 0

def otherWire : Int :=
  if g.target = wire then g.control else g.target

def text (g : Gate) : String :=
  match g.op with
  | .had t => s!"HAD({t})"
  | .rotation k t p =>
    k.name ++ (if k.adjoint then "*" else "") ++ "(" ++ toString t
      ++ (if k.showsPhase then ",phase=" ++ Rat.text p else "") ++ ")"
  | .pair k c t => k.name ++ "(" ++ toString c ++ "," ++ toString t ++ ")"
  | .triple k a b t =>
    k.name ++ "(c1=" ++ toString a ++ ",c2=" ++ toString b ++ ",t=" ++ toString t ++ ")"
  | .parity p ts =>
    "ParityPhase(" ++ Rat.text p ++ ", " ++ ", ".intercalate (ts.map toString) ++ ")"
  | .initAncilla l => s!"InitAncilla({l})"
  | .postSelect l => s!"PostSelect({l})"

def refusal (named : String → Failure) : Failure :=
  if g.isAncilla then .misapplied else named g.text

/-- Whether two gates have the same operation and serial number; wires in which an operation is symmetric may come in any order. -/
def same (a b : Gate) : Bool :=
  a.index == b.index &&
  match a.op, b.op with
  | .pair k c t, .pair k' c' t' =>
    k == k' && ((c == c' && t == t') || (k != .cnot && c == t' && t == c'))
  | .triple k x y t, .triple k' x' y' t' =>
    k == k' && t == t' && ((x == x' && y == y') || (x == y' && y == x'))
  | .parity p ts, .parity p' ts' =>
    p == p' && ts.all ts'.contains && ts'.all ts.contains
  | x, y => x == y

/-- Compares two gates.  An ancilla marker cannot be compared with a gate whose comparison looks at the serial number first. -/
def compare (a b : Gate) : Attempt Bool :=
  let indexed (g : Gate) : Bool :=
    match g.op with
    | .pair k _ _ => k != .cnot
    | .triple _ _ _ _ | .parity _ _ => true
    | _ => false
  if a.isAncilla || b.isAncilla then
    if indexed a || indexed b then .error .unsupported else .ok false
  else .ok (same a b)

def tCount : Attempt Nat :=
  match g.op with
  | .rotation _ _ p | .parity p _ => .ok (if 2 < p.den then 1 else 0)
  | .triple _ _ _ _ => .ok 7
  | .had _ | .pair _ _ _ => .ok 0
  | .initAncilla _ | .postSelect _ => .error .unsupported

def inverse (g : Gate) : Attempt Gate :=
  match g.op with
  | .rotation k t p => .ok { g with op := .rotation k.inverse t (-p) }
  | .parity p ts => .ok { g with op := .parity (-p) ts }
  | .initAncilla _ | .postSelect _ => .error .unsupported
  | _ => .ok g

def copy : Attempt Gate :=
  if g.isAncilla then .error .unsupported else .ok g

def masked : Attempt Int := do
  let i ← wrapIndex mask.length wire
  orOutOfRange mask[i]?

def reposition : Attempt Gate := do
  match g.op with
  | .had t => return { g with op := .had (← masked mask t) }
  | .rotation k t p => return { g with op := .rotation k (← masked mask t) p }
  | .pair k c t =>
    let t ← masked mask t
    return { g with op := .pair k (← masked mask c) t }
  | .triple k a b t =>
    let t ← masked mask t
    let a ← masked mask a
    return { g with op := .triple k a (← masked mask b) t }
  | .parity p ts => return { g with op := .parity p (← ts.mapM (masked mask)) }
  | .initAncilla _ | .postSelect _ => throw .unsupported

def tofExpansion (a b c : Int) : List Gate :=
  [had c, cnot b c, t c true, cnot a c, t c false, cnot b c, t c true, cnot a c, t b false, t c false,
   had c, cnot a b, t a false, t b true, cnot a b]

def cczExpansion (a b c : Int) : List Gate :=
  [cnot b c, t c true, cnot a c, t c false, cnot b c, t c true, cnot a c, t b false, t c false, had c,
   cnot a b, t a false, t b true, cnot a b, had c]

def expand : Attempt (List Gate) :=
  match g.op with
  | .had _ | .rotation _ _ _ => .ok [g]
  | .pair .swap c t => .ok [cnot c t, cnot t c, cnot c t]
  | .pair _ _ _ => .ok [g]
  | .triple .tof a b t => .ok (tofExpansion a b t)
  | .triple .ccz a b t => .ok (cczExpansion a b t)
  | .parity p ts =>
    match ts.getLast? with
    | none => .error .outOfRange
    | some last =>
      let steps := (ts.zip ts.tail).map fun (a, b) => cnot a b
      .ok (steps ++ [zPhase last p] ++ steps.reverse)
  | .initAncilla _ | .postSelect _ => .error .unsupported

def isIn (gs : List Gate) : Bool := gs.any (same · g)

def removeFrom (g : Gate) : List Gate → Attempt (List Gate)
  | [] => .error .badValue
  | h :: rest =>
    if same h g then .ok rest
    else
      match removeFrom g rest with
      | .ok rest => .ok (h :: rest)
      | .error e => .error e

end Gate

end ZXCircuits
