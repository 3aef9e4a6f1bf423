/-
  Blocked Gaussian elimination, in sections of columns.

  In each section rows with equal chunks are added together first, then columns with a set bit below the pivots get a pivot row.
  `Reduction` records the row additions, so that they can be made to other matrices (`applyRows`, `applyCols`).
-/
import ZXCircuits.BitMatrix.Basic

namespace ZXCircuits.BitMatrix

/-- An elimination: the matrix reached, the row additions made so far, the number of pivot rows and the pivot columns, the last
    ones first. -/
structure Reduction where
  matrix : BitMatrix
  steps : List (Nat × Nat)
  rank : Nat
  pivots : List Nat
  deriving Inhabited

namespace Reduction

def start (m : BitMatrix) : Reduction := { matrix := m, steps := [], rank := 0, pivots := [] }

def add (s : Reduction) (r₀ r₁ : Nat) : Reduction := { s with matrix := s.matrix.addRow r₀ r₁, steps := (r₀, r₁) :: s.steps }

def additions (s : Reduction) : List (Nat × Nat) := s.steps.reverse

end Reduction

variable (m : BitMatrix) (full : Bool) (width : Nat)

def chunk (i from_ to_ : Nat) : List Int := ((m.row i).extract from_ to_).toList

/-- Adds the first row with a chunk to every later row with the same chunk; rows without a set bit in the section are left
    alone. -/
def mergeChunks (from_ to_ : Nat) (rows : List Nat) (s : Reduction) : Reduction :=
  (rows.foldl (fun (acc : Reduction × List (List Int × Nat)) r =>
    let t := acc.1.matrix.chunk r from_ to_
    if t.all (· == 0) then acc
    else
      match acc.2.lookup t with
      | some r₀ => (acc.1.add r₀ r, acc.2)
      | none => (acc.1, (t, r) :: acc.2)) (s, [])).1

def rowsFrom (a b : Nat) : List Nat := (List.range (b - a)).map (· + a)

def pivotColumn (s : Reduction) (p : Nat) : Reduction :=
  let rows := s.matrix.numRows
  match (rowsFrom s.rank rows).find? fun r => s.matrix.bit r p with
  | none => s
  | some r₀ =>
    let s := if r₀ = s.rank then s else s.add r₀ s.rank
    let s := (rowsFrom (s.rank + 1) rows).foldl
      (fun s r₁ => if s.matrix.bit r₁ p then s.add s.rank r₁ else s) s
    { s with rank := s.rank + 1, pivots := p :: s.pivots }

def eliminateSection (from_ to_ : Nat) (s : Reduction) : Reduction :=
  let s := mergeChunks from_ to_ (rowsFrom s.rank s.matrix.numRows) s
  (rowsFrom from_ to_).foldl pivotColumn s

/-- Clears the columns above the pivots of one section.  `left` pivot rows and the pivot columns
    `pivots` are still to be done. -/
def clearAbove (from_ : Nat) (s : Reduction) (left : Nat) : List Nat → Reduction × Nat × List Nat
  | [] => (s, left, [])
  | p :: rest =>
    if from_ ≤ p then
      let top := left - 1
      let s := (List.range top).foldl
        (fun s r => if s.matrix.bit r p then s.add top r else s) s
      clearAbove from_ s top rest
    else (s, left, p :: rest)

def sections (cols width : Nat) : List (Nat × Nat) :=
  (List.range ((cols + width - 1) / width)).map fun k =>
    (k * width, min cols ((k + 1) * width))

/-- The elimination with sections of `width` columns, and with the columns above the pivots cleared
    too if `full` is set. -/
def reduce (m : BitMatrix) : Reduction :=
  let parts := sections m.numCols width
  let down := parts.foldl (fun s part => eliminateSection part.1 part.2 s) (Reduction.start m)
  if full then
    (parts.reverse.foldl (fun (acc : Reduction × Nat × List Nat) part =>
      let s := mergeChunks part.1 part.2 (List.range acc.2.1).reverse acc.1
      clearAbove part.1 s acc.2.1 acc.2.2) (down, down.rank, down.pivots)).1
  else down

def standardWidth : Nat := 6

def gauss (width : Int) (m : BitMatrix) : Attempt Reduction :=
  if width = 0 then .error .divisionByZero
  else if width < 0 then .ok (Reduction.start m)
  else .ok (reduce full width.toNat m)

def applyRows (steps : List (Nat × Nat)) (x : BitMatrix) : Attempt BitMatrix := steps.foldlM (fun x s => x.rowAdd s.1 s.2) x

def applyCols (steps : List (Nat × Nat)) (y : BitMatrix) : Attempt BitMatrix := steps.foldlM (fun y s => y.colAdd s.2 s.1) y

def rank (m : BitMatrix) : Nat := (reduce false standardWidth m).rank

/-- Two matrices whose product is `m`: the first has as many columns, and the second as many rows, as
    the rank of `m`. -/
def factor : Attempt (BitMatrix × BitMatrix) := do
  let s := reduce false standardWidth m
  let left ← applyCols s.additions (identity m.numRows)
  return (⟨left.data.map fun r => r.extract 0 s.rank⟩, ⟨s.matrix.data.extract 0 s.rank⟩)

def inverse : Attempt (Option BitMatrix) := do
  if m.numRows ≠ m.numCols then return none
  let s := reduce true standardWidth m
  let inv ← applyRows s.additions (identity m.numRows)
  return if s.rank < m.numRows then none else some inv

/-- What `solve` answers: the rows of the reduced right side, and how many filler entries follow in its
    first row. -/
structure Solution where
  rows : BitMatrix
  filler : Nat
  deriving Inhabited

/-- Solves the system with the columns of `m` for the right side `b`; nothing if a row without a set
    bit has one on the right. -/
def solve (m b : BitMatrix) : Attempt (Option Solution) := do
  let s := reduce true standardWidth m
  let x ← applyRows s.additions b
  let bad ← ((List.range (x.numRows - s.rank)).map fun k => x.numRows - 1 - k).findM? fun i => do
    let a ← orOutOfRange (x.row i)[0]?
    pure (a ≠ 0 : Bool)
  if bad.isSome then return none
  if x.numRows = 0 then throw .outOfRange
  if m.numCols < x.numRows then
    return some ⟨⟨x.data.modify 0 fun r => r.extract 0 m.numCols⟩, 0⟩
  return some ⟨x, m.numCols - x.numRows⟩

def leadingColumns : List Nat := m.toRows.filterMap fun r => r.findIdx? (· != 0)

def kernelOfReduced (cols : Nat) : List (List Int) :=
  let pivots := m.leadingColumns
  let free := (List.range cols).filter fun j => !pivots.contains j
  free.map fun n =>
    let v := (Array.replicate cols (0 : Int)).setIfInBounds n 1
    ((m.toRows.zip pivots).foldl
      (fun (v : Array Int) rp => if rp.1.getD n 0 ≠ 0 then v.setIfInBounds rp.2 1 else v) v).toList

def kernel : List (List Int) × BitMatrix :=
  let r := (reduce true standardWidth m).matrix
  (kernelOfReduced r m.numCols, r)

def additionsAsGates : List (Nat × Nat) := (reduce true width m).additions.map fun s => (s.2, s.1)

/-- A list with as many gates as this is not taken, though there may be no other. -/
def gateLimit : Nat := 1000000

/-- The first of the shortest lists below a limit. -/
def shortestBelow {α : Type} (limit : Nat) (ls : List (List α)) : Option (List α) :=
  ls.foldl (fun best l => if l.length < (best.map List.length).getD limit then some l else best) none

/-- Controlled-not gates, as control and target, that do the work of the matrix. -/
def synthesis (optimise : Bool) : Attempt (List (Nat × Nat)) :=
  if optimise then
    match shortestBelow gateLimit ((rowsFrom 1 m.numRows).map fun w => m.additionsAsGates w) with
    | some gates => .ok gates
    | none => .error .unsupported
  else .ok (m.additionsAsGates 5)

end ZXCircuits.BitMatrix
