/-
  Third-order duplicate and destroy on a parity matrix, whose columns get an eighth of a turn.

  The vector `z` in which two columns differ may be added to a set `y` of columns that keeps all triple products of rows, the kernel of
  `productMatrix`; if `y` holds one of the two columns they cancel.  `iterate` applies matches until there are none; an outside program
  can do it too (`Solver`).
-/
import ZXCircuits.BitMatrix.Gauss
import ZXCircuits.Gate
import ZXCircuits.Random
import ZXCircuits.Text.Numeral

namespace ZXCircuits.Todd

def rowProduct (a b : Array Int) : Array Int := a.zipWith (· * ·) b

def rowSum (a b : Array Int) : Array Int := a.zipWith (fun x y => (x + y) % 2) b

/-- The condition that a triple of rows puts on the columns to which `z` is added; none if `z` is zero
    in all three. -/
def tripleCondition (a b c : Array Int) (za zb zc : Bool) : Option (Array Int) :=
  let ab := rowProduct a b
  let ac := rowProduct a c
  let bc := rowProduct b c
  match za, zb, zc with
  | true, false, false => some bc
  | true, false, true => some (rowSum bc ab)
  | true, true, false => some (rowSum bc ac)
  | true, true, true => some (((ab.zipWith (· + ·) ac).zipWith (· + ·) bc).map (· % 2))
  | false, true, true => some (rowSum ab ac)
  | false, true, false => some ac
  | false, false, true => some ab
  | false, false, false => none

def triples (n : Nat) : List (Nat × Nat × Nat) :=
  (List.range n).flatMap fun a => (BitMatrix.rowsFrom (a + 1) n).flatMap fun b =>
    (BitMatrix.rowsFrom (b + 1) n).map fun c => (a, b, c)

variable (m : BitMatrix) (s : Solver) (report : List Char)

/-- The conditions of all triples of rows and the rows themselves; the kernel holds the sets of columns to which `z` may be
    added. -/
def productMatrix (z : List Int) : Attempt BitMatrix :=
  if 3 ≤ m.numRows ∧ z.length < m.numRows then .error .outOfRange
  else
    let set := z.toArray.map (· != 0)
    let conditions := (triples m.numRows).filterMap fun (a, b, c) =>
      tripleCondition (m.row a) (m.row b) (m.row c) (set.getD a false) (set.getD b false)
        (set.getD c false)
    .ok ⟨conditions.toArray ++ m.data⟩

/-- A pair of columns, the vector in which they differ and the set of columns to add it to. -/
structure Match where
  first : Nat
  second : Nat
  difference : List Int
  columns : List Int
  deriving DecidableEq, Repr

def columnDifference (a b : Nat) : List Int := (List.range m.numRows).map fun i => if m.bit i a = m.bit i b then 0 else 1

def matchPair (a b : Nat) : Option Match :=
  let z := columnDifference m a b
  match productMatrix m z with
  | .error _ => none
  | .ok big =>
    (big.kernel.1.find? fun y => y.getD a 0 + y.getD b 0 = 1).map fun y => ⟨a, b, z, y⟩

def findMatch : Option Match :=
  (List.range m.numCols).findSome? fun a =>
    (BitMatrix.rowsFrom (a + 1) m.numCols).findSome? fun b => matchPair m a b

/-! ## Equal and empty columns, as rows of the transposed matrix -/

/-- Takes out the first row that is empty, or the first row that has an equal one together with the
    first such. -/
def dropTrivial : List (List Int) → Option (List (List Int))
  | [] => none
  | r :: rest =>
    if r.all (· == 0) then some rest
    else if rest.contains r then some (rest.erase r)
    else (dropTrivial rest).map (r :: ·)

def dropAllTrivial : Nat → List (List Int) → List (List Int)
  | 0, rows => rows
  | fuel + 1, rows =>
    match dropTrivial rows with
    | some rows => dropAllTrivial fuel rows
    | none => rows

def removeTrivial (rows : List (List Int)) : List (List Int) := dropAllTrivial rows.length rows

def applyMatch (w : Match) (cols : List (List Int)) : List (List Int) :=
  let z := w.difference
  let flipped := (cols.zip w.columns).map fun (c, y) =>
    if y = 0 then c
    else List.zipWith (fun a b => if b ≠ 0 then BitMatrix.flip a else a) c z
  let odd := BitMatrix.total w.columns % 2 = 1
  let all := if odd then flipped ++ [z] else flipped
  removeTrivial ((all.eraseIdx w.second).eraseIdx w.first)

def reduceOnce : BitMatrix × Int :=
  match findMatch m with
  | none => (m, 0)
  | some w =>
    let cols := applyMatch w m.transpose.toRows
    ((BitMatrix.ofRows cols).transpose, (m.numCols : Int) - cols.length)

def matrixGates : List Gate :=
  m.transpose.toRows.map fun col =>
    match ((col.zip (List.range col.length)).filter (·.1 != 0)).map fun p => (p.2 : Int) with
    | [t] => Gate.t t false
    | targets => Gate.parity (1 / 4) targets

/-- What the outside program was given: its arguments and the text of the file. -/
structure Call where
  arguments : List String
  file : String
  deriving DecidableEq, Repr

/-- An outside program that reduces parity matrices. -/
structure Solver where
  /-- The program and its first arguments. -/
  command : List String
  /-- Whether it is asked for the decoder of Reed-Muller codes. -/
  reedMuller : Bool
  path : String
  /-- What it writes when it is called. -/
  reply : Call → String

def matrixFile : String := "\n".intercalate (m.toRows.map fun r => " ".intercalate (r.map toString))

def Solver.visiblePath (program : String) : String :=
  if Text.contains "wsl".toList program.toList then
    "/mnt/c" ++ String.ofList ((Text.replaceChar '\\' '/' s.path.toList).drop 2)
  else s.path

def Solver.call (m : BitMatrix) : Call :=
  let base := s.command ++ ["gsm", s.visiblePath (s.command.headD "")]
  { arguments := if s.reedMuller then base ++ ["-a", "rm"] else base
    file := matrixFile m }

def reportRows : List (List Char) :=
  let start := Text.position "Output gate".toList report
  let stop := Text.position "Successful".toList report
  (Text.lines (Text.strip (Text.slice report start stop))).drop 2

def positionFrom (c : Char) (report : List Char) (i : Int) : Int :=
  let start := Text.clampPosition report.length i
  match Text.find? [c] (report.drop start) start with
  | some k => k
  | none => -1

def reportTime : String :=
  let i := Text.position "Total time".toList report
  String.ofList (Text.slice report (i + 10) (positionFrom 's' report i))

def transposeRows (rows : List (List Int)) : Attempt (List (List Int)) :=
  let width := (rows.headD []).length
  if rows.any fun r => r.length < width then .error .outOfRange
  else .ok (BitMatrix.ofRows rows).transpose.toRows

def firstWidth (rows : List (List Int)) : Nat := (rows.headD []).length

def Solver.reduce (m : BitMatrix) (verbose : Bool) : Run (List (List Int) × Call) := do
  Run.sayIf verbose "TOpt: "
  let call := s.call m
  let report := s.reply call
  let lines := reportRows report.toList
  Run.sayIf verbose (reportTime report.toList ++ "\n")
  match lines.mapM fun l => l.mapM fun c => Text.readInt [c] with
  | none =>
    Run.say (report ++ "\n")
    Run.say (Text.quotedList lines ++ "\n")
    throw .badValue
  | some rows =>
    let rows ← if s.reedMuller then do
        let cols ← transposeRows rows
        transposeRows (removeTrivial cols)
      else pure rows
    Run.sayIf (verbose && firstWidth rows < m.numCols)
      ("Found reduction:  " ++ toString (m.numCols - firstWidth rows) ++ "\n")
    return (rows, call)

def reduceAll (verbose : Bool) : Nat → BitMatrix → Run BitMatrix
  | 0, _ => throw .stepLimit
  | fuel + 1, m => do
    let (m, saved) := reduceOnce m
    if saved = 0 then
      Run.sayIf verbose "\n"
      return m
    Run.sayIf verbose (toString saved ++ ".")
    reduceAll verbose fuel m

def shuffleColumns {σ : Type} [Random.Source σ] (m : BitMatrix) (s : σ) : BitMatrix × σ :=
  let (cols, s) := Random.shuffle (removeTrivial m.transpose.toRows) s
  ((BitMatrix.ofRows cols).transpose, s)

def iterate {σ : Type} [Random.Source σ] (m : BitMatrix) (verbose : Bool) : RandomRun σ BitMatrix := do
  let m ← RandomRun.drawPure (shuffleColumns m)
  if m.numCols = 0 ∨ m.numRows = 0 then return m
  StateT.lift (reduceAll verbose (m.numCols + 1) m)

def iterateWith {σ : Type} [Random.Source σ] (solver : Solver) (m : BitMatrix) (verbose : Bool) :
    RandomRun σ (List (List Int) × List Call) := do
  let m ← RandomRun.drawPure (shuffleColumns m)
  if m.numCols = 0 ∨ m.numRows = 0 then return (m.toRows, [])
  if solver.command.isEmpty then
    let m ← StateT.lift (reduceAll verbose (m.numCols + 1) m)
    return (m.toRows, [])
  let (rows, call) ← StateT.lift (solver.reduce m verbose)
  return (rows, [call])

end ZXCircuits.Todd
