/-
  Listings of gates and circuits.
-/
import ZXCircuits.Listing.Basic
import ZXCircuits.Circuit.Basic

namespace ZXCircuits.Listing

instance : Listed Gate := ⟨fun g =>
  .arr (.str g.name :: match g.op with
    | .had t => [listing t]
    | .rotation (.s a) t p | .rotation (.t a) t p => [listing t, listing p, listing a]
    | .rotation _ t p => [listing t, listing p]
    | .pair _ c t => [listing c, listing t]
    | .triple _ a b t => [listing a, listing b, listing t]
    | .parity p ts => listing p :: ts.map listing
    | .initAncilla l | .postSelect l => [listing l])⟩

instance : Listed Circuit := ⟨fun c =>
  .obj [("qubits", listing c.qubits), ("name", listing c.name), ("gates", listing c.gates)]⟩

def gateNames : List String :=
  ["HAD", "NOT", "Z", "S", "T", "ZPhase", "XPhase", "CNOT", "CZ", "CX", "SWAP", "TOF", "CCZ", "ParityPhase", "InitAncilla", "PostSelect"]

def gateOf (name : String) (args : List Json) : Attempt Gate := do
  match name, args with
  | "HAD", [t] => return .had (← read t)
  | "NOT", [t] => return .not (← read t)
  | "Z", [t] => return .z (← read t)
  | "S", [t] => return .s (← read t) false
  | "S", [t, a] => return .s (← read t) (truth a)
  | "T", [t] => return .t (← read t) false
  | "T", [t, a] => return .t (← read t) (truth a)
  | "ZPhase", [t, p] => return .zPhase (← read t) (← read p)
  | "XPhase", [t] => return .xPhase (← read t) 0
  | "XPhase", [t, p] => return .xPhase (← read t) (← read p)
  | "CNOT", [c, t] => return .cnot (← read c) (← read t)
  | "CZ", [c, t] => return .cz (← read c) (← read t)
  | "CX", [c, t] => return .cx (← read c) (← read t)
  | "SWAP", [c, t] => return .swap (← read c) (← read t)
  | "TOF", [a, b, t] => return .tof (← read a) (← read b) (← read t)
  | "CCZ", [a, b, t] => return .ccz (← read a) (← read b) (← read t)
  | "ParityPhase", p :: ts => return .parity (← read p) (← ts.mapM read)
  | "InitAncilla", [l] => return .initAncilla (← read l)
  | "PostSelect", [l] => return .postSelect (← read l)
  | _, _ => throw (if gateNames.contains name then .misapplied else .absent)

instance : Readable Gate := ⟨fun j => do
  match ← items j with
  | .str name :: args => gateOf name args
  | _ => throw .misapplied⟩

instance : Readable Circuit := ⟨fun j => do
  let gates ← match j.get? "gates" with
    | some gs => read gs
    | none => pure []
  let name ← match j.get? "name" with
    | some n => read n
    | none => pure ""
  return { qubits := ← read (← field j "qubits"), name := name, gates := gates }⟩

end ZXCircuits.Listing
