/-
  Circuits are taken to be equal if the inverse of one followed by the other reduces to plain wires.
-/
import ZXCircuits.Circuit.ToDiagram
import ZXCircuits.Strategy.Reduce

namespace ZXCircuits.Circuit

def reducesTo (c d : Circuit) : Run Bool := do
  let both ← (← c.adjoint).append d []
  let g ← Strategy.fullReduce false (← both.toDiagram true)
  return (g.numVertices : Int) == 2 * c.qubits

end ZXCircuits.Circuit
