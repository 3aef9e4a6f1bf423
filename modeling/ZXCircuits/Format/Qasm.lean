/-
  The assembly format for quantum circuits.
-/
import ZXCircuits.Circuit.Basic
import ZXCircuits.Table
import ZXCircuits.Text.Numeral

namespace ZXCircuits

/-! ## Writing -/

def phaseDouble (phase : Rat) : Attempt Binary64 :=
  match Binary64.ofRat? phase with
  | some x => .ok x
  | none => .error .overflow

def Gate.toQasm (g : Gate) : Attempt String := do
  let wire (i : Int) : String := s!"q[{i}]"
  match g.op with
  | .had t => return s!"h {wire t};"
  | .rotation k t p =>
    let name ← match k with
      | .zPhase => do pure ("rz(" ++ (← phaseDouble p).text ++ "*pi)")
      | .xPhase => do pure ("rx(" ++ (← phaseDouble p).text ++ "*pi)")
      | .z => pure "z"
      | .not => pure "x"
      | .s adjoint => pure (if adjoint then "sdg" else "s")
      | .t adjoint => pure (if adjoint then "tdg" else "t")
    return s!"{name} {wire t};"
  | .pair .cnot c t => return s!"cx {wire c}, {wire t};"
  | .pair .cz c t => return s!"cz {wire c}, {wire t};"
  | .triple k a b t =>
    let name := match k with
      | .tof => "ccx"
      | .ccz => "ccz"
    return s!"{name} {wire a}, {wire b}, {wire t};"
  | .pair _ _ _ | .parity _ _ => throw (.noQasmForm g.text)
  | .initAncilla _ | .postSelect _ => throw .unsupported

def Circuit.toQasm (c : Circuit) : Attempt String := do
  let lines ← c.gates.mapM Gate.toQasm
  return "OPENQASM 2.0;\ninclude \"qelib1.inc\";\n" ++ s!"qreg q[{c.qubits}];\n"
    ++ String.join (lines.map (· ++ "\n"))

/-! ## Reading -/

namespace Qasm

open Text

/-- A register: its first wire and its size. -/
structure Register where
  start : Int
  size : Int

/-- Registers by their names. -/
abbrev Registers := Table (List Char) Register

structure State where
  custom : Table (List Char) Circuit := []
  qubits : Int := 0

def intOf (text : List Char) : Attempt Int :=
  match readInt text with
  | some n => .ok n
  | none => .error .badValue

def divide (sep : Char) (text : List Char) : Attempt (List Char × List Char) :=
  match splitFirst sep text with
  | some p => .ok p
  | none => .error .badValue

def parts (sep : Char) (text : List Char) : List (List Char) := ((splitChar sep text).map strip).filter (!·.isEmpty)

def rotationPhase (name : List Char) : Attempt Rat := do
  let shown := String.ofList name
  let i := position ['('] name
  let j := position [')'] name
  if i = -1 ∨ j = -1 then throw (.invalidRotation shown)
  match readDouble (slice name (i + 1) j) with
  | none => throw (.invalidRotation shown)
  | some .nan => throw .badValue
  | some (.infinite _) => throw .overflow
  | some (.finite x) => return approximate 100000000 (x.div Binary64.pi).value

/-- The wires of the arguments of a command, for each application in turn. -/
structure Operands where
  values : List (List Int) := []
  range : Bool := false
  size : Int := 1

def addOperand (command : List Char) (registers : Registers) (o : Operands) (a : List Char) : Attempt Operands := do
  if a.contains '[' then
    let (name, val) ← divide '[' a
    let i ← intOf val.dropLast
    match registers.find? name with
    | none => throw (.invalidRegister (String.ofList name))
    | some r => return { o with values := o.values ++ [[r.start + i]] }
  else
    let r ← orAbsent (registers.find? a)
    if o.range && r.size ≠ o.size then throw (.registerSizes (String.ofList command))
    let size := if o.range then o.size else r.size
    let wires := (List.range size.toNat).map fun (k : Nat) => r.start + (k : Int)
    return { values := o.values ++ [wires], range := true, size := size }

def applications (o : Operands) : Attempt (List (List Int)) := do
  let values ← if o.range then
      o.values.mapM fun v => do
        if (v.length : Int) = o.size then pure v
        else
          let first ← orOutOfRange v.head?
          pure (List.replicate o.size.toNat first)
    else pure o.values
  return (List.range o.size.toNat).map fun j => values.map fun v => v.getD j 0

def applyGate (custom : Table (List Char) Circuit) (command name : List Char) (wires : List Int) : Attempt (List Gate) := do
  let at_ (i : Nat) : Attempt Int := orOutOfRange wires[i]?
  match custom.find? name with
  | some body =>
    if (wires.length : Int) ≠ body.qubits then throw (.argumentAmount (String.ofList command))
    body.gates.mapM fun g => g.reposition wires
  | none =>
    match String.ofList name with
    | "x" => return [Gate.not (← at_ 0)]
    | "z" => return [Gate.z (← at_ 0)]
    | "s" => return [Gate.s (← at_ 0) false]
    | "t" => return [Gate.t (← at_ 0) false]
    | "h" => return [Gate.had (← at_ 0)]
    | "sdg" => return [Gate.s (← at_ 0) true]
    | "tdg" => return [Gate.t (← at_ 0) true]
    | "cx" | "CX" => return [Gate.cnot (← at_ 0) (← at_ 1)]
    | "cz" => return [Gate.cz (← at_ 0) (← at_ 1)]
    | "ccx" => return [Gate.tof (← at_ 0) (← at_ 1) (← at_ 2)]
    | "ccz" => return [Gate.ccz (← at_ 0) (← at_ 1) (← at_ 2)]
    | _ =>
      if name.take 2 = ['r', 'x'] then
        let p ← rotationPhase name
        return [Gate.xPhase (← at_ 0) p]
      else if name.take 2 = ['r', 'z'] then
        let p ← rotationPhase name
        return [Gate.zPhase (← at_ 0) p]
      else throw (.unknownGateName (String.ofList command))

variable (s : State) (text : List Char)

def command (registers : Registers) (c : List Char) :
    Attempt (List Gate × State × Registers) := do
  let (name, rest) ← divide ' ' c
  let shown := String.ofList name
  if shown ∈ ["barrier", "creg", "measure", "id"] then return ([], s, registers)
  if shown ∈ ["opaque", "if"] then throw (.unsupportedCommand (String.ofList c))
  let args := parts ',' rest
  if shown = "qreg" then
    let first ← orOutOfRange args.head?
    let (register, size) ← divide '[' first
    let n ← intOf size.dropLast
    return ([], { s with qubits := s.qubits + n }, registers.insert register ⟨s.qubits, n⟩)
  let operands ← args.foldlM (addOperand c registers) {}
  let gates ← (← applications operands).mapM (applyGate s.custom c name)
  return (gates.flatten, s, registers)

def commands (registers : Registers) (cs : List (List Char)) :
    Attempt (List Gate × State × Registers) :=
  cs.foldlM (fun (acc : List Gate × State × Registers) c => do
    let (gates, s, registers) ← command acc.2.1 acc.2.2 c
    return (acc.1 ++ gates, s, registers)) ([], s, registers)

def definition : Attempt State := do
  let data := text.drop 5
  let shown := String.ofList data
  let (spec, body) ← divide '\x7b' data
  let spec ← if spec.contains '(' then do
      let i := position ['('] spec
      let j := position [')'] spec
      if !(strip (slice spec (i + 1) j)).isEmpty then throw (.customArguments shown)
      pure (slice spec 0 i ++ slice spec (j + 1) spec.length)
    else pure spec
  match splitFirst ' ' (strip spec) with
  | none => throw (.customNoArguments shown)
  | some (name, args) =>
    let registers ← (splitChar ',' (strip args)).foldlM
      (fun (t : Registers) a => do
        let a := strip a
        if t.has a then throw (.duplicateVariable shown)
        return t.insert a ⟨t.length, 1⟩) []
    let (gates, s, _) ← commands s registers (parts ';' (strip body.dropLast))
    let circuit : Circuit := { qubits := registers.length, gates := gates }
    return { s with custom := s.custom.insert (strip name) circuit }

def definitions : Nat → State → List Char → Attempt (State × List Char)
  | 0, _, _ => .error .stepLimit
  | fuel + 1, s, data =>
    let i := position "gate ".toList data
    if i = -1 then .ok (s, data)
    else
      let start := i.toNat
      let j := match find? ['\x7d'] (data.drop start) start with
        | some k => (k : Int)
        | none => -1
      match definition s (slice data i (j + 1)) with
      | .ok s => definitions fuel s (slice data 0 i ++ slice data (j + 1) data.length)
      | .error e => .error e

def uncomment (line : List Char) : List Char :=
  let i := position ['/', '/'] line
  strip (if i = -1 then line else slice line 0 i)

def parse : Attempt Circuit := do
  let lines := ((Text.lines text).map uncomment).filter (!·.isEmpty)
  let first ← orOutOfRange lines[0]?
  if !"OPENQASM".toList.isPrefixOf first then throw .missingHeader
  let second ← orOutOfRange lines[1]?
  if !"include \"qelib1.inc\";".toList.isPrefixOf second then throw .missingLibraryInclude
  let data := List.intercalate ['\n'] (lines.drop 2)
  let (s, data) ← definitions (data.length + 1) {} data
  let (gates, s, _) ← commands s [] (parts ';' data)
  return { qubits := s.qubits, gates := gates }

end Qasm

end ZXCircuits
