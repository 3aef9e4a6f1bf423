/-
  Matrices over the two-element field, as stored rows.

  Entries that are not zero are read as one.  Positions given from outside may be negative and then count from the end.
-/
import ZXCircuits.Failure

namespace ZXCircuits

def wrapIndex (length : Nat) (i : Int) : Attempt Nat :=
  let j := if i < 0 then i + length else i
  if 0 ≤ j ∧ j < length then .ok j.toNat else .error .outOfRange

structure BitMatrix where
  data : Array (Array Int)
  deriving DecidableEq, Repr, Inhabited

namespace BitMatrix

def ofRows (rows : List (List Int)) : BitMatrix := ⟨(rows.map List.toArray).toArray⟩

variable (m : BitMatrix)

def toRows : List (List Int) := (m.data.map Array.toList).toList

def numRows : Nat := m.data.size

def numCols : Nat :=
  match m.data[0]? with
  | some r => r.size
  | none => 0

def row (i : Nat) : Array Int := m.data.getD i #[]

def entry (i j : Nat) : Int := (m.row i).getD j 0

def bit (i j : Nat) : Bool := m.entry i j != 0

def flip (a : Int) : Int :=
  if a ≠ 0 then 0 else 1

def difference : List Int → List Int → Attempt (List Int)
  | [], _ => .ok []
  | _ :: _, [] => .error .outOfRange
  | a :: as, b :: bs => do return (if a = b then 0 else 1) :: (← difference as bs)

def addInto (source target : Array Int) : Array Int := target.mapIdx fun i a => if source.getD i 0 ≠ 0 then flip a else a

def addRow (r₀ r₁ : Nat) : BitMatrix :=
  let source := m.row r₀
  ⟨m.data.modify r₁ (addInto source)⟩

def identity (n : Nat) : BitMatrix := ⟨(Array.range n).map fun i => (Array.range n).map fun j => if i = j then 1 else 0⟩

def transpose : BitMatrix := ⟨(Array.range m.numCols).map fun j => (Array.range m.numRows).map fun i => m.entry i j⟩

/-- The product of two matrices.  It fails if the right factor has no rows, or more than a row of the left factor is long. -/
def mul (a b : BitMatrix) : Attempt BitMatrix := do
  if a.numRows = 0 then return ⟨#[]⟩
  if b.numRows = 0 then throw .outOfRange
  if b.numCols ≠ 0 ∧ a.data.any (fun r => r.size < b.numRows) then throw .outOfRange
  return ⟨a.data.map fun r => (Array.range b.numCols).map fun j =>
    ((List.range b.numRows).foldl (fun s k => s + r.getD k 0 * b.entry k j) 0) % 2⟩

def same (a b : BitMatrix) : Bool := a.numRows == b.numRows && a.numCols == b.numCols && a.data == b.data

def text : String :=
  "\n".intercalate (m.toRows.map fun r =>
    "[ " ++ "  ".intercalate (r.map toString) ++ " ]")

/-! ## Row and column operations at given positions -/

def rowAdd (r₀ r₁ : Int) : Attempt BitMatrix := do
  let i ← wrapIndex m.numRows r₀
  let j ← wrapIndex m.numRows r₁
  let source := m.row i
  let target := m.row j
  if (List.range source.size).any (fun k => source.getD k 0 != 0 && target.size ≤ k) then
    throw .outOfRange
  return m.addRow i j

def colAdd (c₀ c₁ : Int) : Attempt BitMatrix := do
  let rows ← m.data.mapM fun (r : Array Int) => do
    let i ← wrapIndex r.size c₀
    if r.getD i 0 ≠ 0 then
      let j ← wrapIndex r.size c₁
      pure (r.modify j flip)
    else pure r
  return ⟨rows⟩

def rowSwap (r₀ r₁ : Int) : Attempt BitMatrix := do
  let i ← wrapIndex m.numRows r₀
  let j ← wrapIndex m.numRows r₁
  return ⟨(m.data.setIfInBounds i (m.row j)).setIfInBounds j (m.row i)⟩

def colSwap (c₀ c₁ : Int) : Attempt BitMatrix := do
  let rows ← m.data.mapM fun (r : Array Int) => do
    let i ← wrapIndex r.size c₀
    let j ← wrapIndex r.size c₁
    pure ((r.setIfInBounds i (r.getD j 0)).setIfInBounds j (r.getD i 0))
  return ⟨rows⟩

def total (r : List Int) : Int := r.foldl (· + ·) 0

end BitMatrix

end ZXCircuits
