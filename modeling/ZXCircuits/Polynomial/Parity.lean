/-
  Phase polynomials over parities.

  A parity is a set of wires in ascending order; its coefficient counts eighths of a turn, modulo eight.  `ParitySum.matrix` has one
  column for every eighth.
-/
import ZXCircuits.Table
import ZXCircuits.BitMatrix.Basic

namespace ZXCircuits

def symmDiff (a b : List Nat) : List Nat := ascending ((a.filter fun x => !b.contains x) ++ b.filter fun x => !a.contains x)

abbrev ParitySum := Table (List Int) Int

namespace ParitySum

def sortWires (wires : List Int) : List Int := wires.mergeSort (· ≤ ·)

variable (p : ParitySum) (wires : List Int) (qubits : Nat)

def addTerm (value : Int) : ParitySum :=
  let key := sortWires wires
  let sum := match Table.find? p key with
    | some old => (old + value) % 8
    | none => value % 8
  if sum = 0 then Table.erase p key else Table.insert p key sum

def addSum (p q : ParitySum) : ParitySum := q.foldl (fun p t => addTerm p t.1 t.2) p

def sorted : ParitySum := p.mergeSort fun a b => lexLe (fun x y => x ≤ y) a.1 b.1

def parityText : String := "@".intercalate ((sortWires wires).map fun w => "x" ++ toString w)

def text : String :=
  " + ".intercalate ((sorted p).map fun t =>
    (if t.2 = 1 then "" else toString t.2) ++ parityText t.1)

def columns : List (List Int) :=
  p.flatMap fun t => List.replicate t.2.toNat
    ((List.range qubits).map fun i => if t.1.contains (i : Int) then 1 else 0)

def matrix : BitMatrix := (BitMatrix.ofRows (p.columns qubits)).transpose

end ParitySum

end ZXCircuits
