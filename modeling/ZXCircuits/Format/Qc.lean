/-
  The format that lists gates between `BEGIN` and `END`.

  A controlled not has up to six controls; with more than two the reader adds ancilla wires after the declared ones.
-/
import ZXCircuits.Circuit.Basic
import ZXCircuits.Table
import ZXCircuits.Text.Cut

namespace ZXCircuits

/-! ## Writing -/

def Gate.toQc (g : Gate) : Attempt String := do
  let wire (i : Int) : String := s!"q{i}"
  match g.op with
  | .had t => return s!"H {wire t}"
  | .rotation k t _ =>
    match k with
    | .z => return s!"Z {wire t}"
    | .not => return s!"X {wire t}"
    | .s adjoint => return (if adjoint then "S* " else "S ") ++ wire t
    | .t adjoint => return (if adjoint then "T* " else "T ") ++ wire t
    | .zPhase | .xPhase => throw (.noQcForm g.text)
  | .pair .cnot c t => return s!"Tof {wire c} {wire t}"
  | .pair _ c t => return s!"Z {wire c} {wire t}"
  | .triple .tof a b t => return s!"Tof {wire a} {wire b} {wire t}"
  | .triple .ccz a b t => return s!"Z {wire a} {wire b} {wire t}"
  | .parity _ _ => throw (.noQcForm g.text)
  | .initAncilla _ | .postSelect _ => throw .unsupported

def Circuit.toQc (c : Circuit) : Attempt String := do
  let lines ← c.splitPhases.gates.mapM Gate.toQc
  return ".v " ++ " ".intercalate (c.wires.map fun i => s!"q{i}") ++ "\n\nBEGIN\n"
    ++ String.join (lines.map (· ++ "\n")) ++ "END\n"

/-! ## Reading -/

namespace Qc

open Text

def declare (labels : Table (List Char) Nat) (line : List Char) : Attempt (Table (List Char) Nat) :=
  match line with
  | '#' :: _ => .ok labels
  | '.' :: _ =>
    .ok ((words (replaceChar ',' ' ' (line.drop 2))).foldl
      (fun t w => if t.has w then t else t.insert w t.length) labels)
  | _ => .error (.unknownExpression (String.ofList line))

/-- The gates read so far and the ancilla wires in use. -/
structure State where
  gates : List Gate := []
  ancillas : List Int := []
  qubits : Int

def manyControlled (ctrls : List Int) (t : Int) (anc : List Int) : List Gate :=
  let c (i : Nat) : Int := ctrls.getD i 0
  let a (i : Nat) : Int := anc.getD i 0
  let outer := Gate.tof (c 0) (c 1) (a 0)
  if ctrls.length = 3 then [outer, Gate.tof (c 2) (a 0) t, outer]
  else
    let second := Gate.tof (c 2) (c 3) (a 1)
    let inner :=
      if ctrls.length = 4 then [Gate.tof (a 0) (a 1) t]
      else if ctrls.length = 5 then
        let both := Gate.tof (a 0) (a 1) (a 2)
        [both, Gate.tof (c 4) (a 2) t, both]
      else
        let third := Gate.tof (c 4) (c 5) (a 2)
        let both := Gate.tof (a 0) (a 1) (a 3)
        [third, both, Gate.tof (a 2) (a 3) t, both, third]
    [outer, second] ++ inner ++ [second, outer]

def addAncillas (n : Nat) (s : State) : State :=
  let missing := n - s.ancillas.length
  { s with
    ancillas := s.ancillas ++ (List.range missing).map fun (k : Nat) => s.qubits + (k : Int)
    qubits := s.qubits + missing }

def readLine (file : String) (labels : Table (List Char) Nat) (s : State) (line : List Char) : Attempt State := do
  if line.head? = some '#' then return s
  let line := strip line
  if line.isEmpty then return s
  let shown := String.ofList line
  match splitFirst ' ' line with
  | none => throw (.unreadableLine shown file)
  | some (name, rest) =>
    let name := String.ofList ((strip name).map Char.toLower)
    let operands := ((splitChar ' ' (strip (replaceChar ',' ' ' rest))).map strip).filter
      (!·.isEmpty)
    let targets ← operands.mapM fun w => do return Int.ofNat (← orAbsent (labels.find? w))
    let add (g : Gate) : State := { s with gates := s.gates ++ [g] }
    match targets with
    | [t] =>
      match name with
      | "tof" | "t1" | "not" | "x" => return add (Gate.not t)
      | "z" => return add (Gate.z t)
      | "s" | "p" => return add (Gate.s t false)
      | "s*" | "p*" => return add (Gate.s t true)
      | "t" => return add (Gate.t t false)
      | "t*" => return add (Gate.t t true)
      | "h" => return add (Gate.had t)
      | _ => throw (.unknownSingle shown)
    | [c, t] =>
      match name with
      | "cnot" | "tof" | "t2" => return add (Gate.cnot c t)
      | "cz" | "z" => return add (Gate.cz c t)
      | _ => throw (.unknownControlled shown)
    | [a, b, t] =>
      match name with
      | "t3" | "tof" => return add (Gate.tof a b t)
      | "ccz" | "z" => return add (Gate.ccz a b t)
      | _ => throw (.unknownControlled shown)
    | _ =>
      if name ∉ ["t4", "t5", "t6", "t7", "tof"] then throw (.unknownMultiple shown)
      match targets.getLast? with
      | none => throw .badValue
      | some t =>
        let ctrls := targets.dropLast
        if 6 < ctrls.length then throw .tooManyControls
        let s := addAncillas (ctrls.length - 2) s
        return { s with gates := s.gates ++ manyControlled ctrls t s.ancillas }

def parse (file : String) (text : List Char) : Attempt Circuit := do
  let start := position "BEGIN".toList text
  let stop := position "END".toList text
  let labels ← (Text.lines (strip (slice text 0 start))).foldlM declare []
  let s ← (Text.lines (slice text (start + 6) stop)).foldlM (readLine file labels)
    { qubits := labels.length }
  return { qubits := s.qubits, gates := s.gates }

end Qc

end ZXCircuits
