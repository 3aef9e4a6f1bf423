/-
  Arranging diagrams of known shape in few rows.
-/
import ZXCircuits.Diagram.Edit

namespace ZXCircuits

/-- The shapes that have an arrangement of their own. -/
inductive NormalForm where
  /-- Z spiders at both ends and X spiders between them. -/
  | layered
  /-- A graph state with local maps. -/
  | graphState
  deriving DecidableEq, Repr

def NormalForm.ofName : String → Attempt NormalForm
  | "grg" => .ok .layered
  | "gslc" => .ok .graphState
  | other => .error (.unknownNormalForm other)

namespace Diagram

variable (g : Diagram) (form : NormalForm)

def nextToBoundary (v : Vertex) (takeQubit : Bool) : Attempt Diagram := do
  let place (w : Vertex) (row : Int) : Diagram :=
    let g := g.setRow v (.int row)
    if takeQubit then g.setQubit v (g.qubit w) else g
  match (← g.neighbours v).find? fun w => g.inputs.contains w || g.outputs.contains w with
  | some w => return if g.inputs.contains w then place w 1 else place w 3
  | none => return g

/-- Puts a vertex into its row: inputs into row 0 and outputs into row 4.  In the layered form the X spiders are
numbered along row 2. -/
def arrangeVertex (acc : Diagram × Nat) (v : Vertex) : Attempt (Diagram × Nat) := do
  let (g, count) := acc
  if g.inputs.contains v then return (g.setRow v (.int 0), count)
  else if g.outputs.contains v then return (g.setRow v (.int 4), count)
  else
    match form, ← g.kind v with
    | .layered, .x => return (g.setPosition v (.int count) (.int 2), count + 1)
    | .layered, .z => return (← g.nextToBoundary v true, count)
    | .graphState, .z => return (← g.nextToBoundary v false, count)
    | _, _ => return (g, count)

def arrange : Attempt Diagram := do
  return (← g.vertices.foldlM (arrangeVertex form) (g, 0)).1

def places : List (Vertex × (Coord × Coord)) := g.vertices.map fun v => (v, (g.row v, (g.qubit v).neg))

end Diagram

end ZXCircuits
