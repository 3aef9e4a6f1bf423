/-
  Comparing numbers of T gates.

  A circuit, given before and perhaps after optimisation by others, is simplified; the table shows the T gates of all versions.
-/
import ZXCircuits.Folder
import ZXCircuits.Strategy.Reduce
import ZXCircuits.Extract.Frontier

namespace ZXCircuits.Comparison

/-- What is compared: the file before optimisation, and up to two files after it. -/
structure Subject where
  name : String
  before : String
  after : Option String := none
  other : Option String := none

structure Result where
  qubits : Int
  gates : Nat
  tBefore : Nat
  tAfterOthers : Option Nat
  tOther : Option Nat
  tReduced : Nat
  /-- Whether a circuit could be read off the simplified diagram. -/
  extracts : Bool

/-- Times that simplification and extraction took, in seconds. -/
structure Times where
  simplify : Binary64 := { value := 0 }
  extract : Binary64 := { value := 0 }

def holds (part name : String) : Bool := Text.contains part.toList name.toList

def withoutSuffix (name : String) : String := String.ofList (name.toList.take (name.length - 7))

def Subject.ofFiles (directory before : String) (after : Option String) : Subject where
  name := if holds "before" before then withoutSuffix before else before
  before := Folder.join directory before
  after := after.map (Folder.join directory)

variable (s : Subject) (folder : Folder)

def Subject.text (hasRun : Bool) : String :=
  "CircuitComparer(" ++ s.name ++ ", " ++ (if hasRun then "True" else "False") ++ ")"

def Subject.run : Run Result := do
  let tAfterOthers ← s.after.mapM fun path => liftM (do
    (← (← Circuit.ofQuipperFile (← folder.file path)).expand).tCount)
  let c ← (← folder.loadCircuit s.before).expand
  let tOther ← s.other.mapM fun path => liftM (do (← folder.loadCircuit path).tCount)
  let tBefore ← c.tCount
  let g ← Strategy.fullReduce false (← c.toDiagram true)
  return { qubits := c.qubits, gates := c.gates.length, tBefore := tBefore
           tAfterOthers := tAfterOthers, tOther := tOther, tReduced := g.tCount
           extracts := (g.extract {}).result.isOk }

def cell (n : Option Nat) : String := (n.map toString).getD "-"

def row (r : Result) (times : Times) : Attempt String :=
  let time (t : Binary64) : String := Decimal.fixed 2 t.value t.isNegative
  if r.extracts then
    .ok (Text.ljust 20 s.name ++ Text.rjust 7 (toString r.qubits) ++ Text.rjust 8 (toString r.gates)
      ++ Text.rjust 9 (toString r.tBefore) ++ Text.rjust 10 (cell r.tAfterOthers)
      ++ Text.rjust 6 (cell r.tOther) ++ Text.rjust 7 (toString r.tReduced)
      ++ Text.rjust 12 (time times.simplify) ++ Text.rjust 14 (time times.extract))
  else .error .badValue

/-! ## The table of a collection -/

def directories : List String := ["circuits\\Arithmetic_and_Toffoli", "circuits\\QFT_and_Adders", "circuits\\Other"]

/-- The files of a directory by what they are for. -/
structure Sorted where
  before : List String := []
  after : List String := []
  other : List String := []

def Sorted.add (s : Sorted) (file : String) : Sorted :=
  if holds "before" file then { s with before := s.before ++ [file] }
  else if holds "tpar" file then { s with other := s.other ++ [file] }
  else if holds ".qc" file || holds ".tfc" file then { s with before := s.before ++ [file] }
  else { s with after := s.after ++ [file] }

/-- The comparisons of a directory: each file before optimisation with files after it whose names begin alike. -/
def subjectsIn (directory : String) : Attempt (List Subject) := do
  let files := (← folder.filesIn directory).foldl Sorted.add {}
  return files.before.map fun before =>
    let start := withoutSuffix before
    let subject := Subject.ofFiles directory before (files.after.find? (·.startsWith start))
    { subject with
      other := ((files.other.filter (·.startsWith start)).getLast?).map (Folder.join directory) }

def header : String :=
  Text.ljust 20 "Circuit"
    ++ " qubits G-count T-before T-kitchen T-par   T-us   Time-Simp Time-Extract\n"

def table (times : Times) : Run Unit := do
  let subjects ← directories.mapM fun d => liftM (subjectsIn folder d)
  Run.say header
  let rows ← subjects.flatten.mapM fun s => do
    let line ← row s (← s.run folder) times
    Run.say (line ++ "\n")
    return line
  Run.say ("\n\n\n" ++ header ++ "\n".intercalate (rows.mergeSort fun a b => a ≤ b) ++ "\n")

end ZXCircuits.Comparison
