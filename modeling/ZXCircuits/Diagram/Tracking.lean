/-
  Adding many edges at once, and following phases through a simplification.

  An edge table holds numbers of regular and Hadamard edges to be added.  Between vertices of one colour regular edges fuse and
  Hadamard edges cancel in pairs, between different colours it is the other way round; if both sorts are left, the fusing one stays
  and half a turn is added to a phase.

  Tracked phases have numbers, which are joined when the phases are fused.  A `PhaseMaster` moves the phases of a diagram whose shape
  is not changed in the same way.
-/
import ZXCircuits.Diagram.Edit

namespace ZXCircuits

/-- Numbers of regular and Hadamard edges to be added, by pairs of vertices in the order in which they came
    in. -/
abbrev EdgeTable := Table Edge (Int × Int)

namespace EdgeTable

def add (t : EdgeTable) (e : Edge) (regular hadamard : Int) : EdgeTable :=
  match t.find? e with
  | some (n₁, n₂) => t.insert e (n₁ + regular, n₂ + hadamard)
  | none => t.insert e (regular, hadamard)

def sorted (t : EdgeTable) : EdgeTable := t.mergeSort fun a b => Diagram.edgeLe a.1 b.1

end EdgeTable

namespace Diagram

def mergedEdge (sameKind : Bool) (n₁ n₂ : Int) : EdgeKind × Bool :=
  let regular := if sameKind then n₁ != 0 else n₁ % 2 != 0
  let hadamard := if sameKind then n₂ % 2 != 0 else n₂ != 0
  match regular, hadamard with
  | true, true => (if sameKind then .regular else .hadamard, true)
  | true, false => (.regular, false)
  | false, true => (.hadamard, false)
  | false, false => (.absent, false)

/-- A diagram with edges that are still to be taken away and added. -/
structure EdgeChanges where
  diagram : Diagram
  regular : List Edge := []
  hadamard : List Edge := []
  remove : List Edge := []

def mergeEntry (c : EdgeChanges) (entry : Edge × (Int × Int)) : Attempt EdgeChanges := do
  let g := c.diagram
  let (e, n₁, n₂) := entry
  let old := g.edgeKind (edge e.1 e.2)
  let n₁ := if old = .regular then n₁ + 1 else n₁
  let n₂ := if old = .hadamard then n₂ + 1 else n₂
  let sameKind := (← g.kind e.1) == (← g.kind e.2)
  let (new, half) := mergedEdge sameKind n₁ n₂
  let g := if half then g.addToPhase e.1 (.int 1) else g
  if new = .absent then
    if old = .absent then return { c with diagram := g }
    return { c with diagram := g, remove := edge e.1 e.2 :: c.remove }
  if old = .absent then
    if new = .regular then return { c with diagram := g, regular := e :: c.regular }
    return { c with diagram := g, hadamard := e :: c.hadamard }
  if old = new then return { c with diagram := g }
  return { c with diagram := ← g.setEdgeKind (edge e.1 e.2) new }

def addEdgeTable (g : Diagram) (t : EdgeTable) : Attempt Diagram := do
  let c ← t.foldlM mergeEntry { diagram := g }
  let g ← c.diagram.removeEdges c.remove.reverse
  let g ← g.addEdges c.regular.reverse .regular
  g.addEdges c.hadamard.reverse .hadamard

end Diagram

end ZXCircuits

namespace ZXCircuits.Diagram

variable (g : Diagram) (m : PhaseMaster) (v : Vertex)

def swapPhaseIndex (old new : Vertex) : Attempt Diagram := do
  if !g.trackPhases then return g
  let i ← orAbsent (g.phaseIndex.get? old)
  let j ← orAbsent (g.phaseIndex.get? new)
  return { g with phaseIndex := (g.phaseIndex.insert old j).insert new i }

def negatePhase : Attempt Diagram := do
  match g.phaseIndex.get? v with
  | none => return g
  | some i =>
    let m ← orAbsent (g.phaseMult.get? i)
    return { g with phaseMult := g.phaseMult.insert i (-m) }

def firstWithIndex (index : Std.TreeMap Vertex Nat) (i : Nat) : Option Vertex := (index.toList.find? fun kv => kv.2 == i).map (·.1)

def vertexOfPhaseIndex (i : Nat) : Attempt Vertex :=
  match firstWithIndex g.phaseIndex i with
  | some v => .ok v
  | none => .error .badValue

/-- A phase of the master diagram that takes part in a fusion. -/
structure Fused where
  vertex : Vertex
  index : Nat
  sign : Int

def isClifford (p : Exact) : Bool := p.den ≤ 2

def masterPhase : Exact := (m.phases.get? v).getD (.ratio 1)

def setMasterPhase (p : Rat) : PhaseMaster := { m with phases := m.phases.insert v (.ratio (Rat.modTwo p)) }

/-- Adds up two phases of the master diagram: the first vertex gets the sum or the difference, the second one nothing. -/
def combine (a b : Fused) : Attempt Diagram := do
  let p := masterPhase m a.vertex
  let q := masterPhase m b.vertex
  if isClifford p || isClifford q then throw .cliffordPhases
  let sum := if a.sign * b.sign = 1 then p.toRat + q.toRat else p.toRat - q.toRat
  let m := setMasterPhase (setMasterPhase m a.vertex sum) b.vertex 0
  return { g with
    master := some m
    phaseMult := (g.phaseMult.insert a.index 1).insert b.index 1 }

/-- Tells the master diagram that two phases are fused.  A vertex with a multiple of a quarter turn passes on the phase it
    stands for, or comes to stand for the other one. -/
def fuseInMaster (i₁ i₂ : Nat) : Attempt Diagram := do
  match firstWithIndex m.index i₁, firstWithIndex m.index i₂ with
  | some v₁, some v₂ =>
    let m₁ ← orAbsent (g.phaseMult.get? i₁)
    let m₂ ← orAbsent (g.phaseMult.get? i₂)
    let second : Option Fused :=
      if isClifford (masterPhase m v₂) then
        (m.phantoms.get? v₂).map fun (v₃, i₃) => ⟨v₃, i₃, m₂ * m₂⟩
      else some ⟨v₂, i₂, m₂⟩
    match second with
    | none => return g
    | some b =>
      if isClifford (masterPhase m v₁) then
        match m.phantoms.get? v₁ with
        | some (v₃, i₃) =>
          let m := { m with index := m.index.insert v₃ i₁, phantoms := m.phantoms.erase v₁ }
          let m₃ ← orAbsent (g.phaseMult.get? i₃)
          g.combine m ⟨v₃, i₃, m₁ * m₃⟩ b
        | none =>
          return { g with
            master := some { m with phantoms := m.phantoms.insert v₁ (b.vertex, b.index) }
            phaseMult := g.phaseMult.insert i₁ 1 }
      else g.combine m ⟨v₁, i₁, m₁⟩ b
  | _, _ => return g

def fusePhases (v w : Vertex) : Attempt Diagram := do
  match g.phaseIndex.get? v, g.phaseIndex.get? w with
  | some i, some j =>
    let g ← match g.master with
      | some m => g.fuseInMaster m i j
      | none => pure g
    return { g with phaseIndex := g.phaseIndex.insert w i }
  | _, _ => return g

end ZXCircuits.Diagram
