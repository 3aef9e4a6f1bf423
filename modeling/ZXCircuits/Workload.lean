/-
  Workloads on random bit matrices, random circuits, their files and their diagrams.

  A diagram can be handed over to another program in a file; what the program does with it is a parameter (`Exchange`).
-/
import ZXCircuits.Format.QGraph
import ZXCircuits.Strategy.Steps
import ZXCircuits.Drawing.Shapes
import ZXCircuits.Tensor.Floating
import ZXCircuits.CommandLine

namespace ZXCircuits.Exchange

/-- A program that was started: its arguments, and the text of the file it was given. -/
structure Call where
  arguments : List String
  file : String

def edit (tool : String) (reply : String → String) (g : Diagram) : Run (Diagram × Call) := do
  let file ← g.toQGraph
  Run.say "Opening Quantomatic...\nDone\n"
  let edited ← Diagram.ofQGraph (reply file)
  return (edited, { arguments := ["java", "-jar", tool, "main.qgraph", "pyzxgraph.qgraph"], file := file })

def view (tool : String) (g : Diagram) : Run Call := do
  let file ← g.toTikz {}
  Run.say "Opening Tikzit...\nDone\n"
  return { arguments := [tool, "graph.tikz"], file := file }

def noEditor : Run Unit := Run.say "Please point towards the Quantomatic jar file with quantomatic.quantomatic_location\n"

def noViewer : Run Unit := Run.say "Please point towards the Tikzit executable with tikz.tikzit_location\n"

def fileSteps (strategy : Diagram → Attempt (List Strategy.NamedStep × Diagram))
    (file : String) : Attempt (List (String × String)) := do
  let (steps, _) ← strategy (← Diagram.ofQGraph file)
  steps.mapM fun s => do return (s.name, ← s.diagram.toQGraph)

def registered (name : String) : String := "registered simproc " ++ name

end ZXCircuits.Exchange

namespace ZXCircuits

/-- A job together with the seed from which its draws start. -/
structure Workload (α : Type) where
  seed : Int
  job : RandomRun Random.Congruential α

namespace Workload

variable {α : Type}

def run (w : Workload α) : Run α := do
  return (← w.job (.ofSeed w.seed)).1

def map {β : Type} (f : α → β) (w : Workload α) : Workload β where
  seed := w.seed
  job := f <$> w.job

def outcomes (w : Workload α) : Nat → Attempt (List α)
  | 0 => .ok []
  | n + 1 => do
    let a ← w.run.result
    return a :: (← w.outcomes n)

end Workload

end ZXCircuits

namespace ZXCircuits.Workload

variable {σ : Type} [Random.Source σ]

def drawnMatrix (size : Nat) : RandomRun σ BitMatrix := do
  let rows ← (List.range size).mapM fun i => do
    let bits ← (List.range size).mapM fun _ => Generate.between 0 1
    return bits.set i 1
  return .ofRows rows

structure MatrixReport where
  rank : Nat
  transposedRank : Nat
  invertible : Bool
  /-- The size of a basis of the kernel of the matrix and of its reduced form together. -/
  kernels : Nat
  /-- The number of controlled nots that make the matrix, and the least number over all widths of sections. -/
  nots : Nat
  fewestNots : Nat
  assignment : List (Nat × Nat)
  /-- Whether the product of the factors, the double transpose and the product with the identity are the matrix. -/
  factors : Bool
  transposes : Bool
  unit : Bool
  textLength : Nat
  /-- The steps that leave a row of the reduced form with a single bit. -/
  reduction : Option (List (Nat × Nat))

def MatrixReport.of (m : BitMatrix) : Attempt MatrixReport := do
  let (kernel, reduced) := m.kernel
  let (left, right) ← m.factor
  return { rank := m.rank, transposedRank := m.transpose.rank, invertible := (← m.inverse).isSome
           kernels := kernel.length + reduced.kernel.1.length
           nots := (← m.synthesis false).length, fewestNots := (← m.synthesis true).length
           assignment := ← m.assignColumns
           factors := (← left.mul right).same m, transposes := m.transpose.transpose.same m
           unit := (← m.mul (.identity m.numCols)).same m
           textLength := m.text.length, reduction := ← reduced.greedyReduction }

def matrices (size : Nat) : Workload MatrixReport where
  seed := 41
  job := do RandomRun.ofExcept (MatrixReport.of (← drawnMatrix size))

end ZXCircuits.Workload

namespace ZXCircuits.Workload

open Generate

variable {σ : Type} [Random.Source σ]

def plain {α : Type} (r : Run α) : RandomRun σ α := StateT.lift r

/-! ## Generating -/

def usual : Chances := { t := some (Binary64.ofRat (15 / 100)) }

def fewT : Chances :=
  let share := some (Binary64.ofRat (3 / 10))
  { t := some (Binary64.ofRat (1 / 10)), s := share, hsh := share, cnot := share }

def circuit (qubits depth : Int) : RandomRun σ Diagram := cliffordT qubits depth usual

def sizes (g : Diagram) : List Int := [g.numVertices, g.edgeCount, g.next]

variable (depth : Int)

def generation : Workload (List Int) where
  seed := 42
  job := do
    let drawn := [← circuit 5 depth, ← cliffordT 5 depth fewT, ← cliffords 5 depth false false,
      ← cliffords 5 depth true false, ← nots 5 (4 * depth)]
    let fixed ← RandomRun.ofExcept (do
      return [← identity 5 (.int 1), ← phasePolynomialIdentity, ← commutingControls (1 / 4) (1 / 2),
        ← twoQubitIdentity, ← otherTwoQubitIdentity])
    return (drawn ++ fixed).flatMap sizes

/-! ## Simplifying and extracting -/

def reduction : Workload (List Int) where
  seed := 7
  job := do
    let g ← plain (Strategy.fullReduce false (← circuit 5 depth))
    return [g.numVertices, g.edgeCount, g.tCount]

def teleportation : Workload (List Nat) where
  seed := 11
  job := do
    let g ← plain (Strategy.teleport false (← circuit 4 depth))
    return [g.numVertices, g.tCount]

def extraction : Workload Nat where
  seed := 5
  job := do
    let g ← plain (Strategy.fullReduce false (← circuit 4 depth))
    return (← plain (g.extract {})).1.gates.length

/-! ## Optimising -/

def turned (g : Gate) : List Gate :=
  match g.op with
  | .rotation .xPhase t p => [.had t, .zPhase t p, .had t]
  | _ => [g]

def optimisation : Workload (Nat × GateCounts) where
  seed := 31
  job := do
    let g ← circuit 5 depth
    plain do
      let c ← Circuit.ofDiagram g true
      let c ← Circuit.simplify { c with gates := c.gates.flatMap turned } false
      return (c.gates.length, ← GateCounts.ofGates c.gates)

/-! ## Drawing -/

structure Drawn where
  /-- The length of the picture. -/
  single : Nat
  /-- The length of a sequence of three pictures. -/
  triple : Nat
  colours : List String
  labels : String × String
  vertices : Nat

def drawing : Workload Drawn where
  seed := 101
  job := do
    let g ← circuit 4 depth
    RandomRun.ofExcept do
      let single ← g.toTikz {}
      let triple := (← Tikz.sequence [g, g, g] (.int 8)).text
      let codes := [0, 1, 2, 3]
      return { single := single.length, triple := triple.length
               colours := codes.map fun c =>
                 (VertexKind.ofCode c).colourName ++ (EdgeKind.ofCode c).colourName
               labels := (Exact.label (.ratio (5 / 4)), Exact.label (.ratio (3 / 4)))
               vertices := g.numVertices }

/-! ## Jobs that end with a failure -/

/-- Asks whether a single gate beside a plain wire is unitary; its copies cannot be glued at a row that holds one
vertex for two wires. -/
def loneGateUnitarity : Workload Bool where
  seed := 1
  job := RandomRun.ofExcept do (← Circuit.toDiagram { qubits := 2, gates := [.had 0] } true).isUnitary

def missingCircuit : Workload Nat where
  seed := 1
  job := RandomRun.ofExcept do return (← Folder.loadCircuit [] "circuit").gates.length

def exchangeText : Workload String where
  seed := 1
  job := RandomRun.ofExcept (Circuit.toQuipper { qubits := 2, gates := [.swap 0 1] })

/-! ## Diagram files -/

/-- The length of the file of a circuit, the number of its vertices, and the length of the file after reading and writing. -/
def fileRoundTrip : Workload (List Nat) where
  seed := 167
  job := do
    let g ← circuit 4 depth
    RandomRun.ofExcept do
      let file ← g.toQGraph
      let again ← (← Diagram.ofQGraph file).toQGraph
      return [file.length, g.numVertices, again.length]

/-! ## Commands -/

/-- What the commands make of the file of a circuit. -/
structure Scripts where
  /-- The number of steps of the Clifford strategy on the file of the diagram. -/
  steps : Nat
  names : List String
  /-- The length of the optimised circuit. -/
  optimised : Nat
  /-- The length of the picture. -/
  picture : Nat

def made {σ : Type} [Random.Source σ] (name text : String) (arguments : List String) : RandomRun σ Nat := do
  let finish ← CommandLine.run { folder := [(name, text)], place := "" } arguments
  return finish.made.foldl (fun n file => n + file.2.length) 0

def scripts : Workload Scripts where
  seed := 131
  job := do
    let g ← circuit 3 depth
    let steps ← RandomRun.ofExcept do Exchange.fileSteps Strategy.cliffordSteps (← g.toQGraph)
    let c ← RandomRun.ofExcept (Circuit.ofDiagram g true)
    let text ← RandomRun.ofExcept (Circuit.toQc { c with gates := c.gates.flatMap turned })
    return { steps := steps.length, names := (steps.take 3).map (·.1)
             optimised := ← made "circuit.qc" text ["opt", "-d", "optimised.qc", "circuit.qc"]
             picture := ← made "circuit.qc" text ["tikz", "circuit.qc"] }

/-! ## Diagrams -/

structure Survey where
  stats : String
  summary : String
  /-- The number of vertices of the diagram followed by its adjoint. -/
  composed : Nat
  /-- The numbers of vertices, of edges with room around them, and of edges whose vertices have numbers below the
  depth of the circuit. -/
  vertices : Nat
  roomyEdges : Nat
  edges : Nat
  /-- The numbers of inputs and outputs that are detected. -/
  boundary : Nat × Nat
  /-- What is read where it was stored, and all keys there. -/
  stored : Json × List String
  /-- The number of vertices after one has been removed. -/
  rest : Nat

def Survey.of (g : Diagram) (depth : Int) : Attempt Survey := do
  let marked := g.setDatum 0 "k" (.int 1)
  let bare := { g with inputs := [], outputs := [] }.detectBoundary
  return { stats := g.stats, summary := g.summary
           composed := (← g.compose (← g.adjoint)).numVertices
           vertices := (g.verticesInRange 0 depth).length
           roomyEdges := (g.edgesInRange 0 depth true).length
           edges := (g.edgesInRange 0 depth false).length
           boundary := (bare.inputs.length, bare.outputs.length)
           stored := ((marked.datum 0 "k").getD (.int 0), marked.dataKeys 0)
           rest := (← g.removeVertex 0).numVertices }

def survey : Workload Survey where
  seed := 211
  job := do
    let g ← circuit 4 depth
    RandomRun.ofExcept (Survey.of g depth)

end ZXCircuits.Workload
