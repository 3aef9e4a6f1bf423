/-
  Phase polynomials in multilinear form: products of at most three wires, with linear coefficients modulo eight, quadratic ones
  modulo four and cubic ones modulo two.  Even coefficients without a cubic part are Clifford gates (`toClifford`).
-/
import ZXCircuits.Table
import ZXCircuits.Gate

namespace ZXCircuits

/-- A phase polynomial in multilinear form; the linear and quadratic terms keep the order in which they
    came in, the cubic ones are ascending. -/
structure Multilinear where
  linear : Table Nat Int := []
  quadratic : Table (Nat × Nat) Int := []
  cubic : List (Nat × Nat × Nat) := []
  deriving DecidableEq, Repr, Inhabited

namespace Multilinear

def tripleLe (a b : Nat × Nat × Nat) : Bool := lexLe (fun x y => x ≤ y) [a.1, a.2.1, a.2.2] [b.1, b.2.1, b.2.2]

variable (p : Multilinear)

def addLinear (v : Nat) (mult : Int) : Multilinear :=
  let value := match p.linear.find? v with
    | some old => (old + mult) % 8
    | none => mult
  { p with linear := p.linear.insert v value }

def addQuadratic (v w : Nat) (mult : Int) : Multilinear :=
  let value := match p.quadratic.find? (v, w) with
    | some old => (old - mult) % 4
    | none => if mult < 0 then 1 else 3
  { p with quadratic := p.quadratic.insert (v, w) value }

def addCubic (u v w : Nat) : Multilinear :=
  if p.cubic.contains (u, v, w) then { p with cubic := p.cubic.filter (· != (u, v, w)) }
  else { p with cubic := ((u, v, w) :: p.cubic).mergeSort tripleLe }

def splits : List Nat → List (Nat × List Nat)
  | [] => []
  | v :: rest => (v, rest) :: splits rest

def addParity (bits : List Int) (subtract : Bool) : Multilinear :=
  let mult : Int := if subtract then -1 else 1
  let wires := ((bits.zip (List.range bits.length)).filter (·.1 != 0)).map (·.2)
  (splits wires).foldl (fun p (u, later) =>
    (splits later).foldl (fun p (v, latest) =>
      latest.foldl (fun p w => p.addCubic u v w) (p.addQuadratic u v mult))
      (p.addLinear u mult)) p

def addMatrix (m : BitMatrix) (subtract : Bool) : Multilinear :=
  m.transpose.toRows.foldl (fun p col => p.addParity col subtract) p

def toClifford : Attempt (List Gate) := do
  let singles ← p.linear.mapM fun (t, v) =>
    if v = 2 then pure [Gate.s t false]
    else if v = 4 then pure [Gate.z t]
    else if v = 6 then pure [Gate.s t true]
    else if v = 0 then pure []
    else throw Failure.notClifford
  let pairs ← p.quadratic.mapM fun ((t, u), v) =>
    if v = 2 then pure [Gate.cz t u]
    else if v = 0 then pure []
    else throw Failure.notClifford
  if !p.cubic.isEmpty then throw .notClifford
  return singles.flatten ++ pairs.flatten

end Multilinear

end ZXCircuits
