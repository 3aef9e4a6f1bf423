/-
  Strategies step by step.

  Each step has a name and the diagram after it; the list ends with a failure if a rule fails.
-/
import ZXCircuits.Strategy.Reduce

namespace ZXCircuits.Strategy

open Rule

structure NamedStep where
  name : String
  diagram : Diagram

/-- The steps made, and the diagram that is left. -/
abbrev Stepping := Attempt (List NamedStep × Diagram)

variable {μ : Type}

def stepsFrom (r : Rule μ) (name : String) : Nat → Nat → Diagram → Stepping
  | 0, _, _ => .error .stepLimit
  | fuel + 1, i, g => do
    let (g, places) ← r.round g
    if places = 0 then return ([], g)
    let (rest, last) ← stepsFrom r name fuel (i + 1) g
    return (⟨name ++ toString i, g⟩ :: rest, last)

def steps (r : Rule μ) (name : String) (g : Diagram) : Stepping := stepsFrom r name g.stepBound 1 g

variable (g : Diagram)

def pivotSteps : Stepping := steps (pivot anything) "pivot" g

def localComplementSteps : Stepping := steps (localComplement anything) "lcomp" g

def bialgebraSteps : Stepping := steps bialgebra "bialg" g

def fusionSteps : Stepping := steps (fusion anything) "spider" g

def identitySteps : Stepping := steps (identity anything) "id" g

def chain (fs : List (Diagram → Stepping)) (g : Diagram) : Stepping :=
  fs.foldlM (fun (acc : List NamedStep × Diagram) f => do
    let (more, g) ← f acc.2
    return (acc.1 ++ more, g)) ([], g)

def greenStep : Stepping := do
  let g ← g.toGreen
  return ([⟨"to_gh", g⟩], g)

def cliffordSteps : Stepping :=
  chain [fusionSteps, greenStep, fusionSteps, pivotSteps, localComplementSteps, pivotSteps, identitySteps, fusionSteps] g

/-- Rounds shared out to workers, called with the wrong arguments. -/
def threaded (_ : Diagram) : Attempt Diagram := .error .misapplied

def stepsOfName (name : String) : Option (Diagram → Stepping) :=
  match name with
  | "pivot_iter" => some pivotSteps
  | "lcomp_iter" => some localComplementSteps
  | "bialg_iter" => some bialgebraSteps
  | "spider_iter" => some fusionSteps
  | "id_iter" => some identitySteps
  | "clifford_iter" => some cliffordSteps
  | _ => none

end ZXCircuits.Strategy
