/-
  Reaching a row with a single set bit by few row additions.

  `minimalSum` looks for a smallest set of rows that add up to such a row, `greedyReduction` orders its additions, and
  `reduceBottomRows` looks for a row that is a sum of the first rows.  `assignColumns` gives each row a column in which it has a
  set bit.
-/
import ZXCircuits.BitMatrix.Basic

namespace ZXCircuits.BitMatrix

/-- The set bits of a square part of a matrix, by row and by column. -/
structure Links where
  size : Nat
  byRow : Array (List Nat)
  byCol : Array (List Nat)

variable (m : BitMatrix) (count : Nat) (l : Links)

def links : Links :=
  let n := min m.numRows m.numCols
  { size := n
    byRow := (Array.range n).map fun i => (List.range n).filter fun j => m.bit i j
    byCol := (Array.range n).map fun j => (List.range n).filter fun i => m.bit i j }

namespace Links

def cols (l : Links) (i : Nat) : List Nat := l.byRow.getD i []

def rows (l : Links) (j : Nat) : List Nat := l.byCol.getD j []

end Links

abbrev Assigned := List (Nat × Nat)

def disputed (target : Assigned) (j i : Nat) : Bool :=
  (l.rows j).any fun k =>
    k != i && match target.lookup k with
      | some t => (l.rows t).contains i
      | none => false

/-- What one look at a row tells. -/
inductive Look where
  /-- The assignment cannot be completed. -/
  | impossible
  /-- A row has to go to a column. -/
  | forced (row col : Nat)
  /-- The row can go to any of these columns. -/
  | open_ (options : List Nat)

def lookAtCols (l : Links) (target : Assigned) : List Nat → Option Look
  | [] => none
  | j :: rest =>
    let free := (l.rows j).filter fun i => (target.lookup i).isNone
    match free.filter fun i => !disputed l target j i with
    | [] => some .impossible
    | [i] => some (.forced i j)
    | _ => lookAtCols l target rest

def lookAtRow (target : Assigned) (i : Nat) : Look :=
  match (l.cols i).filter fun j => !(target.any fun t => t.2 == j) with
  | [] => .impossible
  | [j] => .forced i j
  | options => (lookAtCols l target options).getD (.open_ options)

/-- The row with the fewest options found so far. -/
structure Narrowest where
  row : Option Nat
  options : List Nat
  count : Nat

inductive Survey where
  | impossible
  | forced (row col : Nat)
  | settled (narrowest : Narrowest)

def survey (l : Links) (target : Assigned) : List Nat → Narrowest → Survey
  | [], best => .settled best
  | i :: rest, best =>
    if (target.lookup i).isSome then survey l target rest best
    else
      match lookAtRow l target i with
      | .impossible => .impossible
      | .forced r c => .forced r c
      | .open_ options =>
        survey l target rest
          (if options.length < best.count then ⟨some i, options, options.length⟩ else best)

/-- Completes an assignment.  If every option fails, the assignment made so far is the answer. -/
def complete (l : Links) : Nat → Assigned → Attempt (Option Assigned)
  | 0, _ => .error .stepLimit
  | fuel + 1, target =>
    match survey l target (List.range l.size) ⟨none, [], 1000⟩ with
    | .impossible => .ok none
    | .forced r c => complete l fuel (target ++ [(r, c)])
    | .settled best =>
      if (List.range l.size).all fun i => (target.lookup i).isSome then .ok (some target)
      else
        match best.row with
        | none => .error .impossibleMatching
        | some i => do
          let answers ← best.options.findSomeM? fun j => do
            match ← complete l fuel (target ++ [(i, j)]) with
            | some t => pure (some t)
            | none => pure none
          return some (answers.getD target)

/-- Columns with the rows they are assigned; unassigned columns and rows are paired in ascending
    order. -/
def assignColumns : Attempt (List (Nat × Nat)) := do
  let l := m.links
  match ← complete l (l.size + 1) [] with
  | none => throw .unsupported
  | some target =>
    let byCol := target.map fun t => (t.2, t.1)
    let left := (List.range l.size).filter fun j => (byCol.lookup j).isNone
    let right := (List.range l.size).filter fun i => !(byCol.any fun t => t.2 == i)
    return (byCol ++ left.zip right).mergeSort fun a b => a.1 ≤ b.1

def differ (a b : List Int) : List Int := List.zipWith (fun x y => if x = y then 0 else 1) a b

/-- What the search for a smallest set of rows ends with. -/
inductive SumSearch where
  /-- A row has a single set bit already. -/
  | alreadyThere
  | found (rows : List Nat)
  | notFound
  deriving DecidableEq, Repr

/-- The outcome of extending sets of rows by one row. -/
inductive Extension where
  | found (rows : List Nat)
  | gaveUp
  | extended (sets : List (List Nat × List Int)) (tried : Nat)

def sumLimit : Nat := 100000

/-- Extends one set of rows by each of the later rows; `sets` holds what was extended before, the last
    one first. -/
def extendSet (rows : Array (List Int)) (index : List Nat) (sum : List Int) : List Nat → List (List Nat × List Int) → Nat → Extension
  | [], sets, tried => if sumLimit < tried then .gaveUp else .extended sets tried
  | k :: rest, sets, tried =>
    let row := differ sum (rows.getD k [])
    if BitMatrix.total row = 1 then .found (index ++ [k])
    else extendSet rows index sum rest ((index ++ [k], row) :: sets) (tried + 1)

def extendAll (rows : Array (List Int)) : List (List Nat × List Int) → List (List Nat × List Int) → Nat → Extension
  | [], sets, tried => .extended sets.reverse tried
  | (index, sum) :: rest, sets, tried =>
    let start := index.getLastD 0 + 1
    let later := (List.range (rows.size - start)).map (· + start)
    match extendSet rows index sum later sets tried with
    | .extended sets tried => extendAll rows rest sets tried
    | other => other

def searchSums (rows : Array (List Int)) : Nat → List (List Nat × List Int) → Nat → SumSearch
  | 0, _, _ => .notFound
  | fuel + 1, sets, tried =>
    match extendAll rows sets [] tried with
    | .found index => .found index
    | .gaveUp => .notFound
    | .extended [] _ => .notFound
    | .extended sets tried => searchSums rows fuel sets tried

def minimalSum : SumSearch :=
  let rows := m.toRows
  if rows.any (fun r => BitMatrix.total r = 1) then .alreadyThere
  else
    let singles := (rows.zip (List.range rows.length)).map fun (r, i) => ([i], r)
    searchSums rows.toArray (rows.length + 1) singles 0

structure Participant where
  index : Nat
  row : List Int
  weight : Int
  deriving Inhabited

/-- The best addition among the rows: what it takes away, its source and its target. -/
structure Choice where
  gain : Int
  best : Option (Nat × Nat)

def weigh (c : Choice) (a b : Participant) : Choice :=
  let w := BitMatrix.total (differ a.row b.row)
  let c := if c.gain < a.weight - w then ⟨a.weight - w, some (b.index, a.index)⟩ else c
  if c.gain < b.weight - w then ⟨b.weight - w, some (a.index, b.index)⟩ else c

def bestAddition (ps : List Participant) : Choice :=
  ps.foldl (fun c a => ps.foldl (fun c b => if b.index ≤ a.index then c else weigh c a b) c)
    ⟨-10000, none⟩

def reduceGreedily : Nat → List Participant → Attempt (List (Nat × Nat))
  | 0, _ => .ok []
  | fuel + 1, ps =>
    if ps.length ≤ 1 then .ok []
    else
      let c := bestAddition ps
      match c.best with
      | none => .error .absent
      | some (source, target) =>
        let sourceRow := ((ps.find? fun p => p.index == source).map (·.row)).getD []
        let ps' := ps.map fun p =>
          if p.index = target then
            { p with row := differ sourceRow p.row, weight := p.weight - c.gain }
          else p
        match reduceGreedily fuel (ps'.filter fun p => p.index != source) with
        | .ok rest => .ok ((source, target) :: rest)
        | .error e => .error e

/-- Additions of one row to another that leave a row with a single set bit; nothing if no such set of
    rows was found. -/
def greedyReduction : Attempt (Option (List (Nat × Nat))) :=
  match m.minimalSum with
  | .notFound => .ok none
  | .alreadyThere => .ok (some [])
  | .found index => do
    let ps := index.map fun i =>
      let r := (m.row i).toList
      { index := i, row := r, weight := BitMatrix.total r : Participant }
    let steps ← reduceGreedily ps.length ps
    return some steps

/-! ## Rows that are sums of the first rows -/

/-- The matrix with leading positions taken by rows. -/
structure Leading where
  matrix : BitMatrix
  /-- Position of a leading bit and the row that has it. -/
  taken : List (Nat × Nat)

def leadingBitOf (r : Nat) : Option Nat := (m.row r).toList.findIdx? (· != 0)

def clearTaken : Nat → Nat → Leading → Leading × Option Nat
  | 0, _, s => (s, none)
  | fuel + 1, r, s =>
    match s.matrix.leadingBitOf r with
    | none => (s, none)
    | some i =>
      match s.taken.lookup i with
      | none => (s, some i)
      | some r₀ => clearTaken fuel r { s with matrix := s.matrix.addRow r₀ r }

def takeLeading (m : BitMatrix) : Attempt Leading :=
  (List.range count).foldlM (fun s r => do
    if s.matrix.numRows ≤ r then throw .outOfRange
    let (s, own) := clearTaken (m.numCols + 1) r s
    match own with
    | some i => pure { s with taken := (i, r) :: s.taken }
    | none => throw .exhausted) ⟨m, []⟩

def firstCleared (fuel : Nat) : List Nat → Leading → Option Nat × BitMatrix
  | [], s => (none, s.matrix)
  | r :: rest, s =>
    match clearTaken fuel r s with
    | (s, none) => (some r, s.matrix)
    | (s, some _) => firstCleared fuel rest s

/-- The first row from `count` on that is a sum of the first `count` rows, and the matrix as the search
    leaves it. -/
def reduceBottomRows : Attempt (Nat × BitMatrix) := do
  let s ← takeLeading count m
  let rows := (List.range (m.numRows - count)).map (· + count)
  match firstCleared (m.numCols + 1) rows s with
  | (some r, m) => return (r, m)
  | (none, _) => throw .noReducibleRow

end ZXCircuits.BitMatrix
