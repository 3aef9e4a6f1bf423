/-
  Choosing how diagrams are stored.

  One store is built in; two others need libraries, and a store without operations refuses every request.
-/
import ZXCircuits.Failure

namespace ZXCircuits.Store

def builtIn : String := "simple"

def require (name : Option String) : Attempt Unit :=
  match name with
  | none => .ok ()
  | some n => if n = "" ∨ n = builtIn then .ok () else .error (.unavailableBackend n)

/-- Layers are drawn on one of the stores with a library only. -/
def layered : Attempt Unit := .error (.drawingBackend builtIn)

/-- The stores that need a library. -/
inductive Engine where
  | igraph
  | graphTool
  deriving DecidableEq, Repr

def Engine.load : Engine → Run Unit
  | igraph => do
    Run.say "python-igraph not available\n"
    throw .unsupported
  | graphTool => throw .missingLibrary

/-- What a store without operations does with a request. -/
inductive Reply where
  | refuse (cause : Failure)
  | nothing
  deriving DecidableEq, Repr

/-- A request: its name, the least and the greatest number of arguments, and the reply. -/
structure Request where
  name : String
  least : Nat
  most : Nat
  reply : Reply

def requests (reply : Reply) (names : List (String × Nat × Nat)) : List Request :=
  names.map fun (n, l, m) => { name := n, least := l, most := m, reply := reply }

def bareRequests : List Request :=
  requests (.refuse (.notImplemented true))
    [("vindex", 0, 0), ("depth", 0, 0), ("qubit_count", 0, 0), ("add_vertices", 1, 1),
      ("add_vertex", 0, 4), ("add_edges", 1, 2), ("add_edge", 1, 2), ("add_edge_table", 1, 1),
      ("remove_vertices", 1, 1), ("remove_vertex", 1, 1), ("remove_isolated_vertices", 0, 0),
      ("remove_edges", 1, 1), ("num_vertices", 0, 0), ("num_edges", 0, 0), ("vertices", 0, 0),
      ("edges", 0, 0), ("vertex_set", 0, 0), ("edge_set", 0, 0), ("edge", 2, 2), ("edge_st", 1, 1),
      ("edge_s", 1, 1), ("edge_t", 1, 1), ("neighbours", 1, 1), ("vertex_degree", 1, 1),
      ("incident_edges", 1, 1), ("connected", 2, 2), ("edge_type", 1, 1), ("set_edge_type", 2, 2),
      ("type", 1, 1), ("types", 0, 0), ("pack_circuit_rows", 0, 0), ("stats", 0, 0),
      ("__str__", 0, 0), ("__repr__", 0, 0), ("compose", 1, 1), ("replace_subgraph", 3, 3)]
  ++ requests (.refuse (.notImplemented false))
    [("set_type", 2, 2), ("phase", 1, 1), ("phases", 0, 0), ("set_phase", 2, 2),
      ("add_to_phase", 2, 2), ("qubit", 1, 1), ("qubits", 0, 0), ("set_qubit", 2, 2), ("row", 1, 1),
      ("rows", 0, 0), ("set_row", 2, 2), ("set_position", 3, 3), ("vdata_keys", 1, 1),
      ("vdata", 2, 3), ("set_vdata", 3, 3), ("to_tensor", 0, 0)]
  ++ requests (.refuse (.unavailableBackend "None")) [("copy", 0, 2), ("adjoint", 0, 0)]
  ++ requests (.refuse .unsupported) [("auto_detect_inputs", 0, 0), ("normalise", 0, 0)]
  ++ requests (.refuse .badValue) [("vertex_from_phase_index", 1, 1)]
  ++ requests .nothing
    [("set_phase_master", 1, 1), ("update_phase_index", 2, 2), ("fuse_phases", 2, 2), ("phase_negate", 1, 1)]

def askBare (name : String) (arguments : Nat) : Attempt Unit :=
  match bareRequests.find? (·.name == name) with
  | none => .error .unsupported
  | some r =>
    if arguments < r.least ∨ r.most < arguments then .error .misapplied
    else
      match r.reply with
      | .refuse cause => .error cause
      | .nothing => .ok ()

end ZXCircuits.Store
